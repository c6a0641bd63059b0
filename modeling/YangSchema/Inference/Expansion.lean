import YangSchema.Inference.Merge

/-!
# Expanding uses

Expanding a uses copies the body of its grouping to the place of the uses, bound to the module that
the uses stands in.  The refines and augmentations inside the uses then apply to the place.  A body
is copied only when it is final: as long as other uses in it, or in an augmentation of the uses, have
to be expanded (`busy`), the attempt is put off.
-/

namespace YangSchema

/-- The grouping that a uses names: the nearest one in scope, else a top-level grouping of the module
that the name belongs to. -/
def UsesTask.resolve (t : UsesTask) (d : Draft) : Option GroupingId :=
  (t.scope.find? t.grouping).or (d.findModuleGrouping t.grouping)

/-- What a refinement makes of a node. -/
def Refinement.apply (r : Refinement) (n : NodeDraft) : NodeDraft :=
  { n with
    config := r.config.or n.config
    facts := { n.facts with
      docs := { n.facts.docs with
        description := r.description.or n.facts.docs.description
        reference := r.reference.or n.facts.docs.reference }
      constraints := { n.facts.constraints with
        mandatory := r.mandatory.or n.facts.constraints.mandatory
        minElements := r.minElements.or n.facts.constraints.minElements
        maxElements := r.maxElements.getD n.facts.constraints.maxElements
        must := n.facts.constraints.must ++ r.must }
      properties := { n.facts.properties with
        presence := r.presence.or n.facts.properties.presence
        defaults := if r.defaults.isEmpty then n.facts.properties.defaults else r.defaults }
      unknown := n.facts.unknown ++ r.unknown } }

/-- Refines the node at the target of the task. -/
def RefineTask.run (t : RefineTask) (s : Site) : Edit Unit := do
  match (← get).findDescendant s t.target.steps with
  | none => throw (.unresolved "refine target" t.target.render)
  | some n => Draft.editNode n t.refinement.apply

namespace Draft

/-- Merges an augmentation that stands inside a uses. -/
def mergeBelow (s : Site) (a : AugmentId) : Edit Unit := do
  let d ← get
  let target := (d.augment a).facts.target
  match d.findDescendant s target.steps with
  | none => throw (.unresolved "augment target" target.render)
  | some n => merge a n

/-- Copies the body of a grouping to a site. -/
def copyBody (style : CopyStyle) (body : GroupingDraft) (s : Site) : Edit Unit := do
  body.children.forM fun c => do
    discard <| attach s (← copyNode style c)
  body.uses.forM fun u => do
    pushUses s (← copyUses style u)

end Draft

/-- Expands a uses, unless its grouping is not there or something that it copies is still busy. -/
def UsesTask.attempt (t : UsesTask) (busy : List Owner) : Edit Progress := do
  let d ← get
  match t.resolve d with
  | none => return .blocked
  | some g =>
    let inner := (d.usesOf t.uses).augmentations
    if busy.contains (.grouping g) || inner.any fun a => busy.contains (.augment a) then
      return .blocked
    let body := d.grouping g
    if let some q := d.findClash t.site (QName.bindTo t.home) body.children then
      throw (.malformed (.alreadyDefined q.localName body.facts.name.localName
        (d.pathOf t.site).render))
    Draft.editUses t.uses fun r => { r with facts := { r.facts with grouping := body.facts.path } }
    Draft.copyBody { bindTo := some t.home, byUses := true } body t.site
    t.refines.forM fun r => located r.trace (r.run t.site)
    inner.forM (Draft.mergeBelow t.site)
    return .applied

end YangSchema
