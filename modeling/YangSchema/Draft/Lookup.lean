import YangSchema.Draft.Basic

/-!
# Looking things up in a draft

Nodes are found by name below a site, and by path from the module that the first step names.  The
effective `config` of a node is read off the chain of nodes above it (`Draft.lineage`).
-/

namespace YangSchema

namespace Draft

/-- The module with the given identity. -/
def moduleOf? (d : Draft) (m : ModuleIdentity) : Option ModuleId :=
  (d.modules.slots.findIdx? (·.record.facts.identity == m)).map ModuleId.mk

/-- The first child of a site with the given name. -/
def findChild (d : Draft) (s : Site) (q : QName) : Option NodeId :=
  (d.childrenOf s).find? fun c => (d.node c).name == q

/-- The node at the end of the given steps below a site; no steps lead nowhere. -/
def findDescendant (d : Draft) (s : Site) : List QName → Option NodeId
  | [] => none
  | [q] => d.findChild s q
  | q :: steps => (d.findChild s q).bind fun c => d.findDescendant (.node c) steps

/-- The node at an absolute path. -/
def findDataNode (d : Draft) (p : SchemaPath) : Option NodeId := do
  let first ← p.first?
  let m ← d.moduleOf? first.owner
  d.findDescendant (.module m) p.steps

/-- The first top-level grouping with the given name. -/
def findModuleGrouping (d : Draft) (q : QName) : Option GroupingId := do
  let m ← d.moduleOf? q.owner
  (d.module m).groupings.find? fun g => (d.grouping g).facts.name == q

/-- The given node and the nodes above it, from the inside out, at most `fuel` of them. -/
def lineageUpTo (d : Draft) : Nat → NodeId → List NodeId
  | 0, _ => []
  | fuel + 1, i => i :: match (d.node i).parent with
    | some (.node p) => d.lineageUpTo fuel p
    | _ => []

/-- The given node and the nodes above it, from the inside out. -/
def lineage (d : Draft) (i : NodeId) : List NodeId := d.lineageUpTo d.nodes.size i

/-- Nothing in an operation or a notification is configuration; else the innermost stated value
counts, and everything is configuration where none is stated. -/
def effectiveConfig (d : Draft) (i : NodeId) : Bool :=
  let chain := (d.lineage i).map d.node
  if chain.any (·.kind.isOperationOrEvent) then false
  else (chain.findSome? NodeDraft.config).getD true

end Draft

end YangSchema
