import YangSchema.Draft.Edit
import YangSchema.Inference.Task

/-!
# Applying deviations

A deviation finds its target in the tree as the deviations before it left it, and makes its changes
one property after the other.  Adding needs the property to be absent, replacing and deleting need
it to be present; a property that makes no sense with a change is refused.  A deviation below a node
that was removed before is passed over.
-/

namespace YangSchema

namespace DeviateProperty

def refused (problem : DeviationProblem) : Except Fault NodeDraft :=
  .error (.malformedDeviation problem)

/-- `changed`, unless the property is present at `n`. -/
def ifAbsent (p : DeviateProperty) (n : NodeDraft) (present : Bool) (changed : NodeDraft) :
    Except Fault NodeDraft :=
  if present then refused (.alreadyPresent p.render n.path.render) else .ok changed

/-- `changed`, provided that the property is present at `n`. -/
def ifPresent (p : DeviateProperty) (n : NodeDraft) (present : Bool) (changed : NodeDraft) :
    Except Fault NodeDraft :=
  if present then .ok changed else refused (.notPresent p.render n.path.render)

/-- Whether a further default `v` is one too many: a leaf-list takes any number of different ones,
every other node only one. -/
def defaultTaken (n : NodeDraft) (v : String) : Bool :=
  if n.kind == .leafList then n.properties.defaults.contains v else !n.properties.defaults.isEmpty

/-- The node with the property added, if it may be added and is absent. -/
def add (p : DeviateProperty) (n : NodeDraft) : Except Fault NodeDraft :=
  let c := n.constraints
  let q := n.properties
  match p with
  | config v => p.ifAbsent n n.config.isSome { n with config := some v }
  | mandatory v =>
    p.ifAbsent n c.mandatory.isSome (n.setConstraints { c with mandatory := some v })
  | minElements v =>
    p.ifAbsent n c.minElements.isSome (n.setConstraints { c with minElements := some v })
  | maxElements v => p.ifAbsent n c.maxElements.isSome (n.setConstraints { c with maxElements := v })
  | units v => p.ifAbsent n q.units.isSome (n.setProperties { q with units := some v })
  | defaultValue v =>
    p.ifAbsent n (defaultTaken n v) (n.setProperties { q with defaults := q.defaults ++ [v] })
  | must v => p.ifAbsent n (c.must.contains v) (n.setConstraints { c with must := c.must ++ [v] })
  | unique v =>
    p.ifAbsent n (q.unique.contains v) (n.setProperties { q with unique := q.unique ++ [v] })
  | typeName _ => refused (.notAllowed p.keyword "added" n.path.render)

/-- The node with the property replaced, if it may be replaced and is present; `config` and
`max-elements` always have a value, stated or not. -/
def replace (p : DeviateProperty) (n : NodeDraft) : Except Fault NodeDraft :=
  let c := n.constraints
  let q := n.properties
  match p with
  | config v => .ok { n with config := some v }
  | maxElements v => .ok (n.setConstraints { c with maxElements := v })
  | mandatory v =>
    p.ifPresent n c.mandatory.isSome (n.setConstraints { c with mandatory := some v })
  | minElements v =>
    p.ifPresent n c.minElements.isSome (n.setConstraints { c with minElements := some v })
  | units v => p.ifPresent n q.units.isSome (n.setProperties { q with units := some v })
  | typeName v => p.ifPresent n q.typeName.isSome (n.setProperties { q with typeName := some v })
  | defaultValue v =>
    p.ifPresent n (!q.defaults.isEmpty) (n.setProperties { q with defaults := [v] })
  | must _ | unique _ => refused (.notAllowed p.keyword "replaced" n.path.render)

/-- The node with the property deleted, if it may be deleted and is present with this value. -/
def delete (p : DeviateProperty) (n : NodeDraft) : Except Fault NodeDraft :=
  let c := n.constraints
  let q := n.properties
  match p with
  | defaultValue v => p.ifPresent n (q.defaults.contains v)
      (n.setProperties { q with defaults := q.defaults.filter (· != v) })
  | must v => p.ifPresent n (c.must.contains v)
      (n.setConstraints { c with must := c.must.filter (· != v) })
  | unique v => p.ifPresent n (q.unique.contains v)
      (n.setProperties { q with unique := q.unique.filter (· != v) })
  | units v => p.ifPresent n (q.units == some v) (n.setProperties { q with units := none })
  | config _ | mandatory _ | minElements _ | maxElements _ | typeName _ =>
    refused (.notAllowed p.keyword "deleted" n.path.render)

end DeviateProperty

namespace Draft

/-- Changes a node by an edit that the node may refuse. -/
def alterNode (i : NodeId) (f : NodeDraft → Except Fault NodeDraft) : Edit Unit := do
  let d ← get
  requireOpen (d.nodes.isFrozen i.index) i.render
  let r ← f (d.node i)
  modify fun d => { d with nodes := d.nodes.update i.index fun _ => r }

end Draft

/-- Makes the changes of a deviation at its target; answers whether the target was removed.  A
removal ends the deviation. -/
def deviateNode (target : NodeId) : List Deviate → Edit Bool
  | [] => return false
  | d :: rest => do
    match d.kind with
    | .notSupported =>
      Draft.detach target
      return true
    | .add => d.properties.forM fun p => Draft.alterNode target p.add
    | .replace => d.properties.forM fun p => Draft.alterNode target p.replace
    | .delete => d.properties.forM fun p => Draft.alterNode target p.delete
    deviateNode target rest

/-- Applies a deviation; `removed` are the targets that were removed so far, and so is the answer. -/
def DeviationTask.run (t : DeviationTask) (removed : List SchemaPath) : Edit (List SchemaPath) := do
  let path := t.deviation.target
  match (← get).findDataNode path with
  | none =>
    if removed.any (·.isAncestorOf path) then return removed
    else throw (.unresolved "deviation target" path.render)
  | some target =>
    if ← deviateNode target t.deviation.deviates then return removed ++ [path]
    else return removed

/-- Applies all deviations, in the order of the modules that declare them. -/
def applyDeviations (tasks : List DeviationTask) : Edit Unit := do
  let tasks := tasks.mergeSort fun a b => (a.applyOrder b).isLE
  discard <| tasks.foldlM (fun removed t => located t.trace (t.run removed)) []

end YangSchema
