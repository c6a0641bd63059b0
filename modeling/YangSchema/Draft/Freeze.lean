import YangSchema.Draft.Lookup
import YangSchema.Schema.Shorthand

/-!
# Freezing a draft

Freezing takes the snapshot of a definition, after those of everything that it refers to.  A
snapshot is taken once: whoever freezes the definition again gets the snapshot that is there, and
all references to a definition lead to the same one.  Where freezing fails, the snapshots that were
taken before stay.

The functions go down the references.  A chain of different definitions is no longer than the number
of definitions in the draft, so with that number as `fuel` they run out of it only where references
lead back to their start.  Such definitions have no snapshot: the fault is `Cause.nestedInItself`.
-/

namespace YangSchema

namespace Draft

/-! ## Snapshots from frozen parts -/

/-- The snapshot of a node that is no shorthand case. -/
def snapshotNode (r : NodeDraft) (config : Bool) (children : List Node)
    (augmentations : List Augmentation) (origin : Option Node) (groupings : List Grouping)
    (uses : List Uses) : Node where
  facts := r.facts
  config
  children
  groupings
  uses
  augmentations
  origin

/-- The top-level nodes of a module, sorted into data nodes, rpcs and notifications. -/
def snapshotModule (r : ModuleDraft) (nodes : List Node) (groupings : List Grouping)
    (augmentations : List Augmentation) (uses : List Uses) : Module where
  facts := r.facts
  children := nodes.filter fun n => n.kind != .rpc && n.kind != .notification
  rpcs := nodes.filter (·.kind == .rpc)
  notifications := nodes.filter (·.kind == .notification)
  groupings
  augmentations
  uses

/-! ## Taking snapshots -/

mutual

def freezeNodeUpTo : Nat → NodeId → Edit Node
  | 0, i => throw (.nestedInItself i.render)
  | fuel + 1, i => do
    let d ← get
    if let some frozen := d.nodes.snapshot? i.index then return frozen
    let r := d.node i
    let children ← r.children.mapM (freezeNodeUpTo fuel)
    let augmentations ← r.augmentations.mapM (freezeAugmentUpTo fuel)
    let frozen ←
      if r.kind.isShorthandCase then
        match children with
        | child :: _ => pure (child.synthesize r.path augmentations r.facts.unknown)
        | [] => throw (.internal (.emptyShorthand r.path.render))
      else do
        let origin ← r.origin.mapM (freezeNodeUpTo fuel)
        let groupings ← r.groupings.mapM (freezeGroupingUpTo fuel)
        let uses ← r.uses.mapM (freezeUsesUpTo fuel)
        pure (snapshotNode r (d.effectiveConfig i) children augmentations origin groupings uses)
    modify fun d => { d with nodes := d.nodes.freeze i.index frozen }
    return frozen

def freezeGroupingUpTo : Nat → GroupingId → Edit Grouping
  | 0, i => throw (.nestedInItself i.render)
  | fuel + 1, i => do
    let d ← get
    if let some frozen := d.groupings.snapshot? i.index then return frozen
    let r := d.grouping i
    let children ← r.children.mapM (freezeNodeUpTo fuel)
    let groupings ← r.groupings.mapM (freezeGroupingUpTo fuel)
    let uses ← r.uses.mapM (freezeUsesUpTo fuel)
    let frozen : Grouping := { facts := r.facts, children, groupings, uses }
    modify fun d => { d with groupings := d.groupings.freeze i.index frozen }
    return frozen

def freezeUsesUpTo : Nat → UsesId → Edit Uses
  | 0, i => throw (.nestedInItself i.render)
  | fuel + 1, i => do
    let d ← get
    if let some frozen := d.uses.snapshot? i.index then return frozen
    let r := d.usesOf i
    let augmentations ← r.augmentations.mapM (freezeAugmentUpTo fuel)
    let frozen : Uses := { facts := r.facts, augmentations }
    modify fun d => { d with uses := d.uses.freeze i.index frozen }
    return frozen

def freezeAugmentUpTo : Nat → AugmentId → Edit Augmentation
  | 0, i => throw (.nestedInItself i.render)
  | fuel + 1, i => do
    let d ← get
    if let some frozen := d.augments.snapshot? i.index then return frozen
    let r := d.augment i
    let origin ← r.origin.mapM (freezeAugmentUpTo fuel)
    let children ← r.children.mapM (freezeNodeUpTo fuel)
    let uses ← r.uses.mapM (freezeUsesUpTo fuel)
    let frozen : Augmentation := { facts := r.facts, children, uses, origin }
    modify fun d => { d with augments := d.augments.freeze i.index frozen }
    return frozen

end

def freezeNode (i : NodeId) : Edit Node := do freezeNodeUpTo (← get).size i
def freezeGrouping (i : GroupingId) : Edit Grouping := do freezeGroupingUpTo (← get).size i
def freezeUses (i : UsesId) : Edit Uses := do freezeUsesUpTo (← get).size i
def freezeAugment (i : AugmentId) : Edit Augmentation := do freezeAugmentUpTo (← get).size i

def freezeModule (i : ModuleId) : Edit Module := do
  let d ← get
  if let some frozen := d.modules.snapshot? i.index then return frozen
  let r := d.module i
  let nodes ← r.children.mapM freezeNode
  let groupings ← r.groupings.mapM freezeGrouping
  let augmentations ← r.augmentations.mapM freezeAugment
  let uses ← r.uses.mapM freezeUses
  let frozen := snapshotModule r nodes groupings augmentations uses
  modify fun d => { d with modules := d.modules.freeze i.index frozen }
  return frozen

end Draft

end YangSchema
