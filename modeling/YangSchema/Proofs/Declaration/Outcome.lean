import YangSchema.Declaration.Workspace
import YangSchema.Proofs.Draft.Outcome

/-!
# What a declaration comes to

`Gives x w Q` says that `Q` holds of the answer and the workspace with which the declaration `x` ends
on the workspace `w`, if it succeeds.  A declaration that fails leaves nothing behind, so nothing is
said about it.
-/

namespace YangSchema

namespace Declare

variable {α β : Type} {w : Workspace} {Q R : α → Workspace → Prop}

/-- If `x` succeeds on `w`, then as `Q` says. -/
def Gives (x : Declare α) (w : Workspace) (Q : α → Workspace → Prop) : Prop :=
  ∀ a w', x w = .ok (a, w') → Q a w'

theorem Gives.mono {x : Declare α} (h : Gives x w Q) (hQ : ∀ a w', Q a w' → R a w') :
    Gives x w R :=
  fun a w' hx => hQ a w' (h a w' hx)

theorem Gives.and {x : Declare α} (h : Gives x w Q) (h' : Gives x w R) :
    Gives x w fun a w' => Q a w' ∧ R a w' :=
  fun a w' hx => ⟨h a w' hx, h' a w' hx⟩

/-! ## Single steps -/

theorem gives_pure (a : α) : Gives (pure a) w Q ↔ Q a w := by
  constructor
  · exact fun h => h a w rfl
  · rintro h _ _ ⟨⟩
    exact h

theorem gives_throw (f : Fault) : Gives (throw f : Declare α) w Q := by
  rintro a w' ⟨⟩

theorem gives_bind {x : Declare β} {k : β → Declare α} :
    Gives (x >>= k) w Q ↔ Gives x w fun b w' => Gives (k b) w' Q := by
  have hrun : (x >>= k) w = (x w).bind fun r => k r.1 r.2 := rfl
  unfold Gives
  rw [hrun]
  cases hx : x w with
  | error f =>
    constructor
    · rintro - b w' ⟨⟩
    · rintro - a w' ⟨⟩
  | ok r =>
    constructor
    · rintro h b w' ⟨⟩
      exact h
    · exact fun h => h r.1 r.2 rfl

theorem gives_map {x : Declare β} {f : β → α} :
    Gives (f <$> x) w Q ↔ Gives x w fun b w' => Q (f b) w' := by
  rw [map_eq_pure_bind, gives_bind]
  simp only [gives_pure]

theorem gives_discard {Q : PUnit → Workspace → Prop} {x : Declare β} :
    Gives (discard x) w Q ↔ Gives x w fun _ w' => Q ⟨⟩ w' :=
  gives_map

theorem gives_get {Q : Workspace → Workspace → Prop} : Gives get w Q ↔ Q w w :=
  gives_pure (Q := Q) w

theorem gives_modify {Q : PUnit → Workspace → Prop} (f : Workspace → Workspace) :
    Gives (modify f) w Q ↔ Q ⟨⟩ (f w) := by
  constructor
  · exact fun h => h ⟨⟩ (f w) rfl
  · rintro h _ _ ⟨⟩
    exact h

theorem gives_check {x : Except Fault α} : Gives (check x) w Q ↔ ∀ a, x = .ok a → Q a w := by
  unfold Gives check
  cases x with
  | error f =>
    constructor
    · rintro - a ⟨⟩
    · rintro - a w' ⟨⟩
  | ok a =>
    constructor
    · rintro h _ ⟨⟩
      exact h a w rfl
    · rintro h _ _ ⟨⟩
      exact h a rfl

/-- An edit of the draft leaves the rest of the workspace alone. -/
theorem gives_edit {e : Edit α} (h : Edit.Ends e w.draft (fun a d => Q a { w with draft := d })
    fun _ _ => True) : Gives (edit e) w Q := by
  intro a w' hx
  unfold edit at hx
  split at hx
  · next he =>
    cases hx
    exact h.of_ok he
  · cases hx

theorem gives_located (t : Trace) {x : Declare α} : Gives (located t x) w Q ↔ Gives x w Q := by
  have hrun : located t x w = (x w).mapError (·.locate t) := by
    show Except.tryCatch (x w) _ = _
    cases x w <;> rfl
  unfold Gives
  rw [hrun]
  cases x w with
  | ok r => rfl
  | error f =>
    constructor
    · rintro - a w' ⟨⟩
    · rintro - a w' ⟨⟩

theorem gives_nextOrder {Q : Nat → Workspace → Prop} :
    Gives nextOrder w Q ↔ Q w.nextOrder { w with nextOrder := w.nextOrder + 1 } := by
  constructor
  · exact fun h => h _ _ rfl
  · rintro h _ _ ⟨⟩
    exact h

theorem gives_addUsesTask {Q : PUnit → Workspace → Prop} (t : UsesTask) :
    Gives (addUsesTask t) w Q ↔
      Q ⟨⟩ { w with tasks := { w.tasks with uses := w.tasks.uses ++ [t] } } :=
  gives_modify _

theorem gives_addAugmentTask {Q : PUnit → Workspace → Prop} (t : AugmentTask) :
    Gives (addAugmentTask t) w Q ↔
      Q ⟨⟩ { w with tasks := { w.tasks with augments := w.tasks.augments ++ [t] } } :=
  gives_modify _

theorem gives_addDeviationTask {Q : PUnit → Workspace → Prop} (t : DeviationTask) :
    Gives (addDeviationTask t) w Q ↔
      Q ⟨⟩ { w with tasks := { w.tasks with deviations := w.tasks.deviations ++ [t] } } :=
  gives_modify _

/-! ## Loops -/

/-- A loop keeps an invariant over the elements that are done if each round does. -/
theorem gives_forM {I : List β → Workspace → Prop} {f : β → Declare PUnit} (l : List β) (h : I [] w)
    (hf : ∀ pre x post w, l = pre ++ x :: post → I pre w →
      Gives (f x) w fun _ w' => I (pre ++ [x]) w') :
    Gives (l.forM f) w fun _ w' => I l w' := by
  suffices H : ∀ post pre w, l = pre ++ post → I pre w → Gives (post.forM f) w fun _ w' => I l w'
    from H l [] w rfl h
  intro post
  induction post with
  | nil =>
    intro pre w hl hI
    rw [List.append_nil] at hl
    subst hl
    exact (gives_pure _).2 hI
  | cons x post ih =>
    intro pre w hl hI
    show Gives (f x >>= fun _ => post.forM f) w _
    rw [gives_bind]
    refine (hf pre x post w hl hI).mono fun _ w' hI' => ?_
    exact ih (pre ++ [x]) w' (by simp [hl]) hI'

theorem gives_mapM {γ : Type} {I : List β → List γ → Workspace → Prop} {f : β → Declare γ}
    (l : List β) (h : I [] [] w)
    (hf : ∀ pre x post rs w, l = pre ++ x :: post → I pre rs w →
      Gives (f x) w fun r w' => I (pre ++ [x]) (rs ++ [r]) w') :
    Gives (l.mapM f) w fun rs w' => I l rs w' := by
  suffices H : ∀ post pre rs w, l = pre ++ post → I pre rs w →
      Gives (post.mapM f) w fun rs' w' => I l (rs ++ rs') w' by
    simpa using H l [] [] w rfl h
  intro post
  induction post with
  | nil =>
    intro pre rs w hl hI
    rw [List.append_nil] at hl
    subst hl
    rw [List.mapM_nil, gives_pure, List.append_nil]
    exact hI
  | cons x post ih =>
    intro pre rs w hl hI
    rw [List.mapM_cons, gives_bind]
    refine (hf pre x post rs w hl hI).mono fun r w' hI' => ?_
    rw [gives_bind]
    refine (ih (pre ++ [x]) (rs ++ [r]) w' (by simp [hl]) hI').mono fun rs' w'' hI'' => ?_
    rw [gives_pure]
    simpa using hI''

/-- Reading a list of statements changes nothing. -/
theorem gives_readAll {γ : Type} {f : β → Except Fault γ} {t : β → Trace} (l : List β) :
    Gives (l.mapM fun c => located (t c) (check (f c))) w fun rs w' =>
      w' = w ∧ ∀ r ∈ rs, ∃ c ∈ l, f c = .ok r := by
  refine gives_mapM (I := fun pre rs w' => w' = w ∧ ∀ r ∈ rs, ∃ c ∈ pre, f c = .ok r) l
    ⟨rfl, by simp⟩ ?_
  rintro pre c post rs w' - ⟨rfl, hrs⟩
  rw [gives_located, gives_check]
  refine fun r hr => ⟨rfl, fun r' hr' => ?_⟩
  rcases List.mem_append.1 hr' with hr' | hr'
  · obtain ⟨c', hc', h⟩ := hrs r' hr'
    exact ⟨c', List.mem_append_left _ hc', h⟩
  · exact ⟨c, by simp, List.mem_singleton.1 hr' ▸ hr⟩

/-! ## Declarations that are equal -/

theorem check_ok_bind (a : β) (k : β → Declare α) : check (.ok a) >>= k = k a := rfl

theorem check_bind_congr {e : Except Fault β} {k l : β → Declare α}
    (h : ∀ b, e = .ok b → k b = l b) : check e >>= k = check e >>= l := by
  cases e with
  | error f => rfl
  | ok b => exact h b rfl

theorem forM_congr {f g : β → Declare PUnit} {l : List β} (h : ∀ x ∈ l, f x = g x) :
    l.forM f = l.forM g := by
  induction l with
  | nil => rfl
  | cons x l ih =>
    obtain ⟨hx, hl⟩ := List.forall_mem_cons.1 h
    show (f x >>= fun _ => l.forM f) = g x >>= fun _ => l.forM g
    rw [hx, ih hl]

end Declare

end YangSchema
