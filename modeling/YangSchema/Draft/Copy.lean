import YangSchema.Draft.Edit

/-!
# Copies

A copy of a node copies everything below it, the uses in it and the augmentations in these; every
copied definition remembers what it was copied from.  `CopyStyle` says what changes on the way:
names may be bound to another module, and the copies may be marked.  Nested groupings, type
definitions and the augmentations that were merged into a node are not copied but shared.

The functions go down the definitions to be copied; as no definition contains itself, `fuel` is
enough if it is the number of definitions in the draft.
-/

namespace YangSchema

/-- What changes on copying. -/
structure CopyStyle where
  /-- The module that the copied names are bound to, if it is another one. -/
  bindTo : Option ModuleIdentity := none
  /-- Marks the copies as brought in by a uses. -/
  byUses : Bool := false
  /-- Marks the copies as merged in by an augmentation. -/
  augmenting : Bool := false

namespace CopyStyle

def name (c : CopyStyle) (q : QName) : QName :=
  match c.bindTo with
  | some m => q.bindTo m
  | none => q

def path (c : CopyStyle) (p : SchemaPath) : SchemaPath :=
  match c.bindTo with
  | some m => p.bindTo m
  | none => p

def kind (c : CopyStyle) (k : NodeKind) : NodeKind :=
  match c.bindTo with
  | some m => k.bindTo m
  | none => k

def unknown (c : CopyStyle) (u : UnknownStatement) : UnknownStatement :=
  { u with byUses := u.byUses || c.byUses }

/-- The copy of a node without its children and uses, attached nowhere. -/
def node (c : CopyStyle) (source : NodeId) (r : NodeDraft) : NodeDraft where
  facts := { r.facts with
    kind := c.kind r.facts.kind
    name := c.name r.facts.name
    path := SchemaPath.root.child (c.name r.facts.name)
    byUses := r.facts.byUses || c.byUses
    augmenting := r.facts.augmenting || c.augmenting
    unknown := r.facts.unknown.map c.unknown }
  config := r.config
  groupings := r.groupings
  augmentations := r.augmentations
  origin := some source

/-- The copy of a uses; the path of its grouping stays. -/
def uses (c : CopyStyle) (r : UsesDraft) (augmentations : List AugmentId) : UsesDraft where
  facts := { r.facts with
    refines := r.facts.refines.map c.path
    byUses := r.facts.byUses || c.byUses
    augmenting := r.facts.augmenting || c.augmenting }
  augmentations

/-- The copy of an augmentation without its body. -/
def augment (c : CopyStyle) (source : AugmentId) (r : AugmentDraft) : AugmentDraft where
  facts := { r.facts with
    target := c.path r.facts.target
    home := c.bindTo.getD r.facts.home }
  origin := some source

end CopyStyle

namespace Draft

mutual

/-- Copies a node with everything below it. -/
def copyNodeUpTo (style : CopyStyle) : Nat → NodeId → Edit NodeId
  | 0, source => throw (.nestedInItself source.render)
  | fuel + 1, source => do
    let r := (← get).node source
    let copy ← addNode (style.node source r)
    r.children.forM fun child => do
      let c ← copyNodeUpTo style fuel child
      editChildren (.node copy) (· ++ [c])
      editNode c fun r => { r with parent := some (.node copy) }
    r.uses.forM fun u => do
      pushUses (.node copy) (← copyUsesUpTo style fuel u)
    return copy

/-- Copies a uses with the augmentations in it. -/
def copyUsesUpTo (style : CopyStyle) : Nat → UsesId → Edit UsesId
  | 0, source => throw (.nestedInItself source.render)
  | fuel + 1, source => do
    let r := (← get).usesOf source
    let augmentations ← r.augmentations.mapM (copyAugmentUpTo style fuel)
    addUses (style.uses r augmentations)

/-- Copies an augmentation with its body. -/
def copyAugmentUpTo (style : CopyStyle) : Nat → AugmentId → Edit AugmentId
  | 0, source => throw (.nestedInItself source.render)
  | fuel + 1, source => do
    let r := (← get).augment source
    let copy ← addAugment (style.augment source r)
    r.children.forM fun child => do
      discard <| attach (.augment copy) (← copyNodeUpTo style fuel child)
    r.uses.forM fun u => do
      pushUses (.augment copy) (← copyUsesUpTo style fuel u)
    return copy

end

def copyNode (style : CopyStyle) (source : NodeId) : Edit NodeId := do
  copyNodeUpTo style (← get).size source

def copyUses (style : CopyStyle) (source : UsesId) : Edit UsesId := do
  copyUsesUpTo style (← get).size source

def copyAugment (style : CopyStyle) (source : AugmentId) : Edit AugmentId := do
  copyAugmentUpTo style (← get).size source

end Draft

end YangSchema
