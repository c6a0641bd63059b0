import YangSchema.Schema.Tree

/-!
# Shorthand cases

A node that is placed directly under a choice stands in a case of its own, which nobody wrote.  Such
a case says what its child says: name, documentation, configuration, constraints and flags.  Where
the child is a copy, the case counts as a copy too, namely of the shorthand case around the child's
origin (`Node.wrap`).
-/

namespace YangSchema

namespace Node

/-- What a shorthand case around a node with the given facts says. -/
def shorthandFacts (child : NodeFacts) (path : SchemaPath) (unknown : List UnknownStatement) :
    NodeFacts :=
  { child with
    kind := .caseNode true
    path, unknown
    properties := {}
    typedefs := [] }

/-- The shorthand case around a node, at the place of that node; it stands for an origin. -/
def wrap (child : Node) : Node :=
  match child with
  | ⟨facts, config, children, groupings, uses, augmentations, origin⟩ => {
    facts := shorthandFacts facts facts.path []
    config
    children := [⟨facts, config, children, groupings, uses, augmentations, origin⟩]
    groupings := []
    uses := []
    augmentations := []
    origin := match origin with
      | some o => some o.wrap
      | none => none }

/-- The shorthand case around `child` that stands in the tree, at its own path and with what was
merged into it. -/
def synthesize (child : Node) (path : SchemaPath) (augmentations : List Augmentation)
    (unknown : List UnknownStatement) : Node where
  facts := shorthandFacts child.facts path unknown
  config := child.config
  children := [child]
  groupings := []
  uses := []
  augmentations
  origin := child.origin.map wrap

/-! ## Lemmas -/

theorem wrap_eq_synthesize (child : Node) : child.wrap = child.synthesize child.path [] [] := by
  cases child with
  | mk facts config children groupings uses augmentations origin =>
    cases origin <;> simp [wrap, synthesize, Node.path]

theorem origins_wrap (child : Node) : child.wrap.origins = child.origins.map wrap := by
  match child with
  | ⟨facts, config, children, groupings, uses, augmentations, none⟩ => simp [wrap, origins]
  | ⟨facts, config, children, groupings, uses, augmentations, some o⟩ =>
    have ih := origins_wrap o
    rw [wrap, origins, origins]
    simp [ih]

end Node

end YangSchema
