import YangSchema.Draft.Basic

/-!
# Tasks

Declaring the sources leaves work behind that needs other definitions to be there: uses to expand,
augmentations to merge, deviations to apply.  Each piece of work is a task, and carries the trace of
the statement that it comes from.
-/

namespace YangSchema

/-- The groupings that can be seen from a place, the innermost first. -/
abbrev Scope := List (QName × GroupingId)

/-- The nearest grouping of the given name. -/
def Scope.find? (s : Scope) (q : QName) : Option GroupingId :=
  (List.find? (·.1 == q) s).map Prod.snd

/-- A body that a declaration stands in and that others copy. -/
inductive Owner where
  | grouping (i : GroupingId)
  | augment (i : AugmentId)
deriving DecidableEq

/-- What came of an attempt. -/
inductive Progress where
  | applied
  /-- It has to be tried again later. -/
  | blocked
deriving DecidableEq

/-- What a `refine` states. -/
structure Refinement where
  description : Option String := none
  reference : Option String := none
  config : Option Bool := none
  mandatory : Option Bool := none
  presence : Option String := none
  /-- Added to those of the node. -/
  must : List String := []
  /-- Taken instead of those of the node, unless empty. -/
  defaults : List String := []
  minElements : Option Nat := none
  /-- The inner `none` is `unbounded`. -/
  maxElements : Option (Option Nat) := none
  /-- Added to those of the node. -/
  unknown : List UnknownStatement := []

/-- One `refine`; its target is a path from the place of the uses. -/
structure RefineTask where
  target : SchemaPath
  refinement : Refinement
  trace : Trace

/-- A `uses` that has to be expanded. -/
structure UsesTask where
  uses : UsesId
  site : Site
  grouping : QName
  scope : Scope
  /-- The bodies around the uses, the outermost first. -/
  enclosing : List Owner
  /-- The module that the copies are bound to. -/
  home : ModuleIdentity
  refines : List RefineTask
  trace : Trace

namespace UsesTask

/-- The grouping that the uses stands in, if any. -/
def innermostGrouping (t : UsesTask) : Option GroupingId :=
  t.enclosing.reverse.findSome? fun
    | .grouping g => some g
    | .augment _ => none

/-- It is the last grouping among the bodies around the uses. -/
theorem innermostGrouping_eq_some {t : UsesTask} {g : GroupingId} : t.innermostGrouping = some g ↔
    ∃ outer inner, t.enclosing = outer ++ .grouping g :: inner ∧ ∀ g', .grouping g' ∉ inner := by
  unfold innermostGrouping
  rw [List.findSome?_eq_some_iff]
  constructor
  · rintro ⟨inner, b, outer, hsplit, hb, hinner⟩
    cases b with
    | augment a => cases hb
    | grouping g' =>
      cases hb
      refine ⟨outer.reverse, inner.reverse, ?_, fun _ hmem => ?_⟩
      · rw [← List.reverse_reverse t.enclosing, hsplit]
        simp
      · cases hinner _ (List.mem_reverse.1 hmem)
  · rintro ⟨outer, inner, hsplit, hinner⟩
    refine ⟨inner.reverse, .grouping g, outer.reverse, by simp [hsplit], rfl, fun b hb => ?_⟩
    cases b with
    | augment a => rfl
    | grouping g' => exact absurd (List.mem_reverse.1 hb) (hinner g')

/-- The bodies that are not final before the uses is expanded: the grouping that it stands in, and
every augmentation around it. -/
def occupies (t : UsesTask) : List Owner :=
  (t.innermostGrouping.map Owner.grouping).toList ++ t.enclosing.filter fun
    | .augment _ => true
    | .grouping _ => false

end UsesTask

/-- A module-level `augment` that has to be merged. -/
structure AugmentTask where
  augment : AugmentId
  target : SchemaPath
  order : Nat
  /-- The place of the declaring module in linkage order. -/
  rank : Nat
  trace : Trace

namespace AugmentTask

/-- By target, then by the place among the declarations, then by module. -/
def applyOrder (a b : AugmentTask) : Ordering :=
  compareLex (compareOn target) (compareLex (compareOn order) (compareOn rank)) a b

end AugmentTask

/-- A deviation that takes effect. -/
structure DeviationTask where
  deviation : Deviation
  rank : Nat
  order : Nat
  trace : Trace

namespace DeviationTask

/-- By module, then by the place among the declarations. -/
def applyOrder (a b : DeviationTask) : Ordering :=
  compareLex (compareOn rank) (compareOn order) a b

end DeviationTask

/-- The work that declaration leaves, in the order in which it was found. -/
structure Tasks where
  uses : List UsesTask := []
  augments : List AugmentTask := []
  deviations : List DeviationTask := []

end YangSchema
