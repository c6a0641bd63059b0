import YangSchema.Draft.Lookup

/-!
# Shaping the tree of a draft

`attach` puts a node at the end of the children of a site and gives every node of its subtree the
path that belongs there.  Under a choice only cases stand: any other node gets a shorthand case
around it.  `detach` takes a node out again, and with it a shorthand case that is left empty.
-/

namespace YangSchema

namespace Draft

/-- Adds a module; its identity must be new. -/
def addModule (r : ModuleDraft) : Edit ModuleId := do
  if ((← get).moduleOf? r.facts.identity).isSome then
    throw ⟨.duplicateModule r.facts.identity.render, none⟩
  modifyGet fun d => (⟨d.modules.size⟩, { d with modules := d.modules.push r })

/-- Puts a grouping at the end of those defined at a site; an augmentation defines none. -/
def pushGrouping (s : Site) (g : GroupingId) : Edit Unit :=
  match s with
  | .module i => editModule i fun r => { r with groupings := r.groupings ++ [g] }
  | .node i => editNode i fun r => { r with groupings := r.groupings ++ [g] }
  | .grouping i => editGrouping i fun r => { r with groupings := r.groupings ++ [g] }
  | .augment _ => throw (.malformed (.notInsideAugment "grouping"))

/-- Puts a type definition at the end of those at a site; an augmentation defines none. -/
def pushTypedef (s : Site) (t : Typedef) : Edit Unit :=
  match s with
  | .module i => editModule i fun r =>
    { r with facts := { r.facts with typedefs := r.facts.typedefs ++ [t] } }
  | .node i => editNode i fun r =>
    { r with facts := { r.facts with typedefs := r.facts.typedefs ++ [t] } }
  | .grouping i => editGrouping i fun r =>
    { r with facts := { r.facts with typedefs := r.facts.typedefs ++ [t] } }
  | .augment _ => throw (.malformed (.notInsideAugment "typedef"))

/-- The shorthand case for a node: its name and flags, and nothing else. -/
def shorthandFor (child : NodeDraft) : NodeDraft :=
  let wrapper := NodeDraft.blank (.caseNode true) child.name
  { wrapper with facts := { wrapper.facts with
      byUses := child.facts.byUses
      augmenting := child.facts.augmenting } }

/-- Gives the node `i` its place under `above`, and every node below it the place that follows.
The way down visits no node twice, so `fuel` counts the nodes that are left for it. -/
def repath : Nat → NodeId → SchemaPath → Edit Unit
  | 0, i, _ => throw (.nestedInItself i.render)
  | fuel + 1, i, above => do
    editNode i fun r => { r with facts := { r.facts with path := above.child r.name } }
    let r := (← get).node i
    r.children.forM fun c => repath fuel c r.path

/-- Puts a node at the end of the children of a site, whatever they are. -/
def place (s : Site) (child : NodeId) : Edit Unit := do
  let above := (← get).pathOf s
  editChildren s (· ++ [child])
  editNode child fun r => { r with parent := some s }
  repath (← get).nodes.size child above

/-- Attaches a node; answers the node that now stands among the children of the site. -/
def attach (s : Site) (child : NodeId) : Edit NodeId := do
  let d ← get
  let node := d.node child
  match s with
  | .node p =>
    let holder := d.node p
    if !holder.kind.acceptsChildren then
      throw (.malformed (.cannotContain holder.kind.keyword holder.path.render node.kind.keyword))
    if holder.kind.isChoice && !node.kind.isCase then
      let wrapper ← addNode (shorthandFor node)
      place s wrapper
      place (.node wrapper) child
      return wrapper
  | _ => pure ()
  place s child
  return child

/-- Takes a node from its parent; a shorthand case that this leaves empty goes too, and so on.  Each
step undoes one attachment, so there are at most `fuel` of them. -/
def detachUpTo : Nat → NodeId → Edit Unit
  | 0, _ => pure ()
  | fuel + 1, child => do
    let some s := ((← get).node child).parent | return
    editChildren s (·.filter (· != child))
    editNode child fun r => { r with parent := none }
    if let .node p := s then
      let holder := (← get).node p
      if holder.kind.isShorthandCase && holder.children.isEmpty then detachUpTo fuel p

/-- Takes a node from its parent, if it has one. -/
def detach (child : NodeId) : Edit Unit := do
  detachUpTo ((← get).nodes.size + 1) child

end Draft

end YangSchema
