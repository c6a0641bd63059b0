import YangSchema.Draft.Lemmas

/-!
# What an edit comes to

`Ends e d Q E` says how the edit `e` ends when it is run on the draft `d`: with an answer and a draft
that satisfy `Q`, or with a fault and a draft that satisfy `E`.  There is one rule for each way in
which edits are put together; the rules for loops (`ends_forM`, `ends_mapM`, `ends_foldlM`) take an
invariant over the elements that are done.
-/

namespace YangSchema

/-! ## Outcomes that are computed -/

section Computed

variable {α ε : Type} {x : Except ε α} {a : α} {e : ε} {l : List α}

/-- The fault of an outcome. -/
def fault? : Except ε α → Option ε
  | .ok _ => none
  | .error e => some e

/-- The element of a list that has one. -/
def only? : List α → Option α
  | [a] => some a
  | _ => none

theorem toOption_eq_some : x.toOption = some a ↔ x = .ok a := by
  cases x <;> simp [Except.toOption]

theorem fault?_eq_some : fault? x = some e ↔ x = .error e := by
  cases x <;> simp [fault?]

theorem only?_eq_some : only? l = some a ↔ l = [a] := by
  unfold only?
  split <;> simp_all

end Computed

theorem mapM_congr {m : Type → Type} [Monad m] [LawfulMonad m] {α β : Type} {f g : α → m β} {l : List α}
    (h : ∀ x ∈ l, f x = g x) : l.mapM f = l.mapM g := by
  induction l with
  | nil => rfl
  | cons x l ih =>
    obtain ⟨hx, hl⟩ := List.forall_mem_cons.1 h
    rw [List.mapM_cons, List.mapM_cons, hx, ih hl]

namespace Edit

variable {α β γ : Type} {d : Draft} {Q R : α → Draft → Prop} {E F : Fault → Draft → Prop}

/-- How `e` ends on `d`: as `Q` says if it succeeds, as `E` says if it fails. -/
def Ends (e : Edit α) (d : Draft) (Q : α → Draft → Prop) (E : Fault → Draft → Prop) : Prop :=
  match e.perform d with
  | (.ok a, d') => Q a d'
  | (.error f, d') => E f d'

/-! ## Using an outcome -/

theorem Ends.mono {e : Edit α} (h : Ends e d Q E) (hQ : ∀ a d', Q a d' → R a d')
    (hE : ∀ f d', E f d' → F f d') : Ends e d R F := by
  unfold Ends at h ⊢
  split at h
  · exact hQ _ _ h
  · exact hE _ _ h

theorem Ends.of_ok {e : Edit α} {a : α} {d' : Draft} (h : Ends e d Q E)
    (he : e.perform d = (.ok a, d')) : Q a d' := by
  unfold Ends at h
  rw [he] at h
  exact h

theorem Ends.of_error {e : Edit α} {f : Fault} {d' : Draft} (h : Ends e d Q E)
    (he : e.perform d = (.error f, d')) : E f d' := by
  unfold Ends at h
  rw [he] at h
  exact h

/-- What holds of the draft in either case. -/
theorem Ends.draft {e : Edit α} {I : Draft → Prop} (h : Ends e d (fun _ d' => I d') fun _ d' => I d') :
    I (e.perform d).2 := by
  unfold Ends at h
  split at h
  · next he => rw [he]; exact h
  · next he => rw [he]; exact h

theorem ends_iff {e : Edit α} :
    Ends e d Q E ↔ (∀ a d', e.perform d = (.ok a, d') → Q a d') ∧
      ∀ f d', e.perform d = (.error f, d') → E f d' := by
  constructor
  · intro h
    exact ⟨fun a d' => h.of_ok, fun f d' => h.of_error⟩
  · rintro ⟨hQ, hE⟩
    unfold Ends
    split
    · next he => exact hQ _ _ he
    · next he => exact hE _ _ he

theorem Ends.and {e : Edit α} (h : Ends e d Q E) (h' : Ends e d R F) :
    Ends e d (fun a d' => Q a d' ∧ R a d') fun f d' => E f d' ∧ F f d' := by
  rw [ends_iff] at h h' ⊢
  exact ⟨fun a d' he => ⟨h.1 a d' he, h'.1 a d' he⟩, fun f d' he => ⟨h.2 f d' he, h'.2 f d' he⟩⟩

/-! ## Single steps -/

@[simp] theorem ends_pure (a : α) : Ends (pure a) d Q E ↔ Q a d := Iff.rfl

@[simp] theorem ends_throw (f : Fault) : Ends (throw f : Edit α) d Q E ↔ E f d := Iff.rfl

@[simp] theorem ends_get {Q : Draft → Draft → Prop} : Ends get d Q E ↔ Q d d := Iff.rfl

@[simp] theorem ends_modify {Q : PUnit → Draft → Prop} (f : Draft → Draft) :
    Ends (modify f) d Q E ↔ Q ⟨⟩ (f d) := Iff.rfl

@[simp] theorem ends_modifyGet (f : Draft → α × Draft) :
    Ends (modifyGet f) d Q E ↔ Q (f d).1 (f d).2 := Iff.rfl

theorem ends_bind {e : Edit β} {k : β → Edit α} :
    Ends (e >>= k) d Q E ↔ Ends e d (fun b d' => Ends (k b) d' Q E) E := by
  unfold Ends
  rw [perform_bind]
  cases e.perform d with
  | mk r d' => cases r <;> rfl

theorem ends_map {e : Edit β} {f : β → α} :
    Ends (f <$> e) d Q E ↔ Ends e d (fun b d' => Q (f b) d') E := by
  rw [map_eq_pure_bind, ends_bind]
  rfl

theorem ends_discard {Q : PUnit → Draft → Prop} {e : Edit β} :
    Ends (discard e) d Q E ↔ Ends e d (fun _ d' => Q ⟨⟩ d') E :=
  ends_map

theorem ends_liftM {x : Except Fault α} :
    Ends (liftM x) d Q E ↔ match x with
      | .ok a => Q a d
      | .error f => E f d := by
  cases x <;> rfl

theorem ends_located (t : Trace) {e : Edit α} :
    Ends (located t e) d Q E ↔ Ends e d Q fun f d' => E (f.locate t) d' := by
  have h : (located t e).perform d = match e.perform d with
      | (.ok a, d') => (.ok a, d')
      | (.error f, d') => (.error (f.locate t), d') := by
    show (ExceptT.run (tryCatchThe Fault e _)).run d = _
    simp only [perform, tryCatchThe, MonadExceptOf.tryCatch, ExceptT.tryCatch]
    simp only [ExceptT.run, ExceptT.mk, StateT.run, bind, StateT.bind]
    cases he : (e : StateM Draft (Except Fault α)) d with
    | mk r d' => cases r <;> rfl
  unfold Ends
  rw [h]
  cases e.perform d with
  | mk r d' => cases r <;> rfl

/-! ## Loops -/

/-- A loop keeps an invariant over the elements that are done if each round does. -/
theorem ends_forM {I : List β → Draft → Prop} {f : β → Edit PUnit} (l : List β) (h : I [] d)
    (hf : ∀ pre x post d, l = pre ++ x :: post → I pre d →
      Ends (f x) d (fun _ d' => I (pre ++ [x]) d') E) :
    Ends (l.forM f) d (fun _ d' => I l d') E := by
  suffices H : ∀ post pre d, l = pre ++ post → I pre d → Ends (post.forM f) d (fun _ d' => I l d') E
    from H l [] d rfl h
  intro post
  induction post with
  | nil =>
    intro pre d hl hI
    rw [List.append_nil] at hl
    subst hl
    exact hI
  | cons x post ih =>
    intro pre d hl hI
    show Ends (f x >>= fun _ => post.forM f) d _ _
    rw [ends_bind]
    refine (hf pre x post d hl hI).mono (fun _ d' hI' => ?_) fun _ _ hE => hE
    exact ih (pre ++ [x]) d' (by simp [hl]) hI'

theorem ends_mapM {I : List β → List γ → Draft → Prop} {f : β → Edit γ} (l : List β) (h : I [] [] d)
    (hf : ∀ pre x post rs d, l = pre ++ x :: post → I pre rs d →
      Ends (f x) d (fun r d' => I (pre ++ [x]) (rs ++ [r]) d') E) :
    Ends (l.mapM f) d (fun rs d' => I l rs d') E := by
  suffices H : ∀ post pre rs d, l = pre ++ post → I pre rs d →
      Ends (post.mapM f) d (fun rs' d' => I l (rs ++ rs') d') E from by
    simpa using H l [] [] d rfl h
  intro post
  induction post with
  | nil =>
    intro pre rs d hl hI
    rw [List.append_nil] at hl
    subst hl
    rw [List.mapM_nil, ends_pure, List.append_nil]
    exact hI
  | cons x post ih =>
    intro pre rs d hl hI
    rw [List.mapM_cons, ends_bind]
    refine (hf pre x post rs d hl hI).mono (fun r d' hI' => ?_) fun _ _ hE => hE
    rw [ends_bind]
    refine (ih (pre ++ [x]) (rs ++ [r]) d' (by simp [hl]) hI').mono (fun rs' d'' hI'' => ?_)
      fun _ _ hE => hE
    rw [ends_pure]
    simpa using hI''

theorem ends_foldlM {I : List β → γ → Draft → Prop} {f : γ → β → Edit γ} (l : List β) (c : γ)
    (h : I [] c d)
    (hf : ∀ pre x post c d, l = pre ++ x :: post → I pre c d →
      Ends (f c x) d (fun c' d' => I (pre ++ [x]) c' d') E) :
    Ends (l.foldlM f c) d (fun c' d' => I l c' d') E := by
  suffices H : ∀ post pre c d, l = pre ++ post → I pre c d →
      Ends (post.foldlM f c) d (fun c' d' => I l c' d') E from H l [] c d rfl h
  intro post
  induction post with
  | nil =>
    intro pre c d hl hI
    rw [List.append_nil] at hl
    subst hl
    exact hI
  | cons x post ih =>
    intro pre c d hl hI
    rw [List.foldlM_cons, ends_bind]
    refine (hf pre x post c d hl hI).mono (fun c' d' hI' => ?_) fun _ _ hE => hE
    exact ih (pre ++ [x]) c' d' (by simp [hl]) hI'

/-- A loop fails where its first round that fails does. -/
theorem ends_foldlM_fails {f : γ → β → Edit γ} (l : List β) (c : γ) :
    Ends (l.foldlM f c) d (fun _ _ => True) fun x d' =>
      ∃ pre b post c₁ d₁, l = pre ++ b :: post ∧ (pre.foldlM f c).perform d = (.ok c₁, d₁) ∧
        (f c₁ b).perform d₁ = (.error x, d') := by
  refine (ends_foldlM (I := fun done c₁ d₁ => (done.foldlM f c).perform d = (.ok c₁, d₁)) l c rfl
    fun pre b post c₁ d₁ hl hpre => ?_).mono (fun _ _ _ => trivial) fun _ _ hE => hE
  refine ends_iff.2 ⟨fun c₂ d₂ hok => ?_, fun x d' herror => ?_⟩
  · rw [List.foldlM_append, perform_bind_of_ok hpre, List.foldlM_cons, perform_bind_of_ok hok]
    rfl
  · exact ⟨pre, b, post, c₁, d₁, hl, hpre, herror⟩

end Edit

end YangSchema
