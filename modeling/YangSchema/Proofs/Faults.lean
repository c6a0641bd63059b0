import YangSchema.Build

/-!
# Which faults a computation has

Every cause belongs to the phases that it can arise in (`Cause.phases`); breaches of the library's own
rules belong to none.

`FailsOnly P x` says that `x`, if it fails, does so for a cause that `P` accepts.  There is a rule for
each way in which computations are put together, and beside it one that says when the whole succeeds.
`Agree R x y` compares two computations: they fail alike, or `R` relates their answers.
-/

namespace YangSchema

/-- The phases in which a build can fail for the cause. -/
def Cause.phases : Cause → List Phase
  | malformed _ => Phase.all
  | missingModule _ | dependencyCycle _ => [.linkage]
  | duplicateModule _ => [.sourcePreLinkage, .fullDeclaration]
  | illegalDeviation _ => [.fullDeclaration]
  | unresolved .. | malformedDeviation _ => [.fullDeclaration, .effectiveModel]
  | circularGrouping _ | augmentationConflict .. | invalidAugmentTarget .. | nestedInItself _ =>
    [.effectiveModel]
  | internal _ => []

/-- The cause can arise in the phase. -/
def Cause.Of (p : Phase) (c : Cause) : Prop := p ∈ c.phases

instance (p : Phase) (c : Cause) : Decidable (c.Of p) := inferInstanceAs (Decidable (p ∈ c.phases))

namespace Cause

theorem of_malformed (problem : SyntaxProblem) (p : Phase) : (malformed problem).Of p := p.mem_all

theorem unresolved_of_effectiveModel (what target : String) :
    (unresolved what target).Of .effectiveModel := List.mem_of_getLast? rfl

theorem malformedDeviation_of_effectiveModel (problem : DeviationProblem) :
    (malformedDeviation problem).Of .effectiveModel := List.mem_of_getLast? rfl

end Cause

variable {α β γ : Type} {P Q : Cause → Prop} {f : Fault}

/-- The computation has no fault but those with a cause that `P` accepts. -/
def FailsOnly (P : Cause → Prop) (x : Except Fault α) : Prop := ∀ f, x = .error f → P f.cause

namespace FailsOnly

theorem ok (a : α) : FailsOnly P (.ok a) := by
  rintro f ⟨⟩

theorem error (h : P f.cause) : FailsOnly P (.error f : Except Fault α) := by
  rintro _ ⟨⟩
  exact h

theorem bind {x : Except Fault α} {k : α → Except Fault β} (hx : FailsOnly P x)
    (hk : ∀ a, x = .ok a → FailsOnly P (k a)) : FailsOnly P (x >>= k) := by
  cases x with
  | error f => exact fun g hg => hx g (by cases hg; rfl)
  | ok a => exact hk a rfl

theorem map {x : Except Fault α} (g : α → β) (hx : FailsOnly P x) : FailsOnly P (g <$> x) := by
  cases x with
  | error f => exact fun g hg => hx g (by cases hg; rfl)
  | ok a => exact ok _

theorem discard {x : Except Fault α} (hx : FailsOnly P x) : FailsOnly P (Functor.discard x) := by
  cases x with
  | error f => exact fun g hg => hx g (by cases hg; rfl)
  | ok a => exact ok _

theorem located {x : Except Fault α} (t : Trace) (hx : FailsOnly P x) :
    FailsOnly P (YangSchema.located t x) := by
  cases x with
  | error f =>
    rintro _ ⟨⟩
    exact hx f rfl
  | ok a => exact ok a

theorem mapM {g : α → Except Fault β} (l : List α) (h : ∀ a ∈ l, FailsOnly P (g a)) :
    FailsOnly P (l.mapM g) := by
  induction l with
  | nil => exact ok _
  | cons a l ih =>
    rw [List.mapM_cons]
    refine (h a List.mem_cons_self).bind fun b _ => ?_
    exact (ih fun a ha => h a (List.mem_cons_of_mem _ ha)).bind fun bs _ => ok _

theorem forM {g : α → Except Fault PUnit} (l : List α) (h : ∀ a ∈ l, FailsOnly P (g a)) :
    FailsOnly P (l.forM g) := by
  induction l with
  | nil => exact ok _
  | cons a l ih =>
    exact (h a List.mem_cons_self).bind fun _ _ => ih fun a ha => h a (List.mem_cons_of_mem _ ha)

/-- A loop with a state of which `I` holds between the rounds. -/
theorem foldlM {I : β → Prop} {g : β → α → Except Fault β} (l : List α)
    (h : ∀ a ∈ l, ∀ b, I b → FailsOnly P (g b a) ∧ ∀ b', g b a = .ok b' → I b') {b : β} (hb : I b) :
    FailsOnly P (l.foldlM g b) := by
  induction l generalizing b with
  | nil => exact ok _
  | cons a l ih =>
    rw [List.foldlM_cons]
    obtain ⟨hfails, hkeeps⟩ := h a List.mem_cons_self b hb
    exact hfails.bind fun b' hb' => ih (fun a ha => h a (List.mem_cons_of_mem _ ha)) (hkeeps b' hb')

theorem optionMapM {g : α → Except Fault β} {x : Option α} (h : ∀ a, x = some a → FailsOnly P (g a)) :
    FailsOnly P (x.mapM g) := by
  cases x with
  | none => exact ok _
  | some a => exact (h a rfl).map some

end FailsOnly

/-! ## Success and failure -/

theorem bind_eq_ok {x : Except Fault α} {k : α → Except Fault β} {b : β} :
    x >>= k = .ok b ↔ ∃ a, x = .ok a ∧ k a = .ok b := by
  cases x with
  | error f => exact iff_of_false (by rintro ⟨⟩) (by rintro ⟨_, ⟨⟩, -⟩)
  | ok a => exact ⟨fun h => ⟨a, rfl, h⟩, fun ⟨_, ha, h⟩ => by cases ha; exact h⟩

theorem bind_eq_error {x : Except Fault α} {k : α → Except Fault β} :
    x >>= k = .error f ↔ x = .error f ∨ ∃ a, x = .ok a ∧ k a = .error f := by
  cases x with
  | error g => exact ⟨fun h => .inl (by cases h; rfl), by rintro (⟨⟨⟩⟩ | ⟨_, ⟨⟩, -⟩); rfl⟩
  | ok a => exact ⟨fun h => .inr ⟨a, rfl, h⟩, by rintro (⟨⟨⟩⟩ | ⟨_, ⟨⟩, h⟩); exact h⟩

theorem located_eq_ok {t : Trace} {x : Except Fault α} {a : α} :
    located t x = .ok a ↔ x = .ok a := by
  cases x with
  | error f => exact iff_of_false (by rintro ⟨⟩) (by rintro ⟨⟩)
  | ok b => rfl

theorem located_eq_error {t : Trace} {x : Except Fault α} :
    located t x = .error f ↔ ∃ g, x = .error g ∧ f = g.locate t := by
  cases x with
  | error g => exact ⟨by rintro ⟨⟩; exact ⟨g, rfl, rfl⟩, by rintro ⟨_, ⟨⟩, rfl⟩; rfl⟩
  | ok a => exact iff_of_false (by rintro ⟨⟩) (by rintro ⟨_, ⟨⟩, -⟩)

theorem discard_eq_ok {x : Except Fault α} {u : PUnit} : discard x = .ok u ↔ ∃ a, x = .ok a := by
  cases x with
  | error f => exact iff_of_false (by rintro ⟨⟩) (by rintro ⟨_, ⟨⟩⟩)
  | ok b => exact iff_of_true rfl ⟨b, rfl⟩

theorem forM_eq_ok {g : α → Except Fault PUnit} {l : List α} {u : PUnit} :
    l.forM g = .ok u ↔ ∀ a ∈ l, g a = .ok ⟨⟩ := by
  induction l with
  | nil => exact iff_of_true rfl (by simp)
  | cons a l ih =>
    rw [List.forall_mem_cons, ← ih]
    show (g a >>= fun _ => l.forM g) = _ ↔ _
    cases g a with
    | error f => exact iff_of_false (by rintro ⟨⟩) (by rintro ⟨⟨⟩, -⟩)
    | ok u => exact ⟨fun h => ⟨rfl, h⟩, fun h => h.2⟩

theorem exists_of_mapM_eq_error {g : α → Except Fault β} {l : List α} (h : l.mapM g = .error f) :
    ∃ a ∈ l, g a = .error f := by
  induction l with
  | nil => cases h
  | cons a l ih =>
    rw [List.mapM_cons] at h
    rcases bind_eq_error.1 h with ha | ⟨b, -, h⟩
    · exact ⟨a, List.mem_cons_self, ha⟩
    · rcases bind_eq_error.1 h with hl | ⟨bs, -, ⟨⟩⟩
      obtain ⟨a', ha', hg⟩ := ih hl
      exact ⟨a', List.mem_cons_of_mem _ ha', hg⟩

theorem exists_of_forM_eq_error {g : α → Except Fault Unit} {l : List α} (h : l.forM g = .error f) :
    ∃ a ∈ l, g a = .error f := by
  induction l with
  | nil => cases h
  | cons a l ih =>
    rcases bind_eq_error.1 h with ha | ⟨-, -, hl⟩
    · exact ⟨a, List.mem_cons_self, ha⟩
    · obtain ⟨a', ha', hg⟩ := ih hl
      exact ⟨a', List.mem_cons_of_mem _ ha', hg⟩

/-- A loop that only checks. -/
theorem forIn_eq_forM {x : α → Except Fault PUnit} (l : List α) :
    (forIn l PUnit.unit fun a _ => do x a; pure (ForInStep.yield PUnit.unit)) = l.forM x := by
  induction l with
  | nil => rfl
  | cons a l ih =>
    rw [List.forIn_cons]
    show _ = x a >>= fun _ => l.forM x
    cases x a with
    | error f => rfl
    | ok u => exact ih

/-! ## Computations that agree -/

/-- Two computations that fail alike, or give answers that are related. -/
inductive Agree {α β ε : Type} (R : α → β → Prop) : Except ε α → Except ε β → Prop
  | error (e : ε) : Agree R (.error e) (.error e)
  | ok {a : α} {b : β} (h : R a b) : Agree R (.ok a) (.ok b)

namespace Agree

variable {α β γ δ ε ι : Type} {R : α → β → Prop} {S : γ → δ → Prop} {x : Except ε α} {y : Except ε β}

theorem refl (x : Except ε α) : Agree Eq x x := by
  cases x with
  | error e => exact .error e
  | ok a => exact .ok rfl

theorem eq {x y : Except ε α} (h : Agree Eq x y) : x = y := by
  cases h with
  | error e => rfl
  | ok h => rw [h]

theorem of_ok {b : β} (h : Agree R x y) (hy : y = .ok b) : ∃ a, x = .ok a ∧ R a b := by
  subst hy
  cases h with
  | ok h => exact ⟨_, rfl, h⟩

theorem bind {k : α → Except ε γ} {l : β → Except ε δ} (h : Agree R x y)
    (hk : ∀ a b, x = .ok a → R a b → Agree S (k a) (l b)) : Agree S (x >>= k) (y >>= l) := by
  cases h with
  | error e => exact .error e
  | ok h => exact hk _ _ rfl h

theorem foldlM {f : α → ι → Except ε α} {g : β → ι → Except ε β}
    (h : ∀ a b, R a b → ∀ i, Agree R (f a i) (g b i)) (l : List ι) :
    ∀ a b, R a b → Agree R (l.foldlM f a) (l.foldlM g b) := by
  induction l with
  | nil => exact fun a b hab => .ok hab
  | cons i l ih =>
    intro a b hab
    rw [List.foldlM_cons, List.foldlM_cons]
    exact (h a b hab i).bind fun a' b' _ hab' => ih a' b' hab'

theorem run {x : Except Fault α} {y : Except Fault β} (h : Agree R x y) (p : Phase) :
    Agree R (p.run x) (p.run y) := by
  cases h with
  | error f => exact .error _
  | ok h => exact .ok h

end Agree

end YangSchema
