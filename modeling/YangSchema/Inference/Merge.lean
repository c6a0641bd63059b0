import YangSchema.Draft.Copy
import YangSchema.Inference.Task

/-!
# Merging augmentations

Merging copies the body of an augmentation into its target.  It is all or nothing: the target must
accept children, and no name of the body may be taken there, before the first copy is made.
-/

namespace YangSchema

namespace Draft

/-- The first node of `body` whose name `rename` makes one that is taken at the site. -/
def findClash (d : Draft) (s : Site) (rename : QName → QName) (body : List NodeId) :
    Option QName :=
  (body.map fun c => rename (d.node c).name).find? fun q => (d.findChild s q).isSome

/-- Merges the body of an augmentation into a node. -/
def merge (a : AugmentId) (target : NodeId) : Edit Unit := do
  let d ← get
  let node := d.node target
  if !node.kind.acceptsChildren then
    throw ⟨.invalidAugmentTarget node.path.render node.kind.keyword, none⟩
  let body := d.augment a
  if let some q := d.findClash (.node target) id body.children then
    throw ⟨.augmentationConflict node.path.render q.localName, none⟩
  let style : CopyStyle := { augmenting := true }
  body.children.forM fun c => do
    discard <| attach (.node target) (← copyNode style c)
  body.uses.forM fun u => do
    pushUses (.node target) (← copyUses style u)
  editNode target fun r => { r with
    facts := { r.facts with unknown := r.facts.unknown ++ body.facts.unknown }
    augmentations := r.augmentations ++ [a] }

end Draft

/-- Merges a module-level augmentation, once its target is there. -/
def AugmentTask.attempt (t : AugmentTask) : Edit Progress := do
  match (← get).findDataNode t.target with
  | none => return .blocked
  | some target =>
    Draft.merge t.augment target
    return .applied

end YangSchema
