import YangSchema.Registry

/-!
# Linkage

The sources of a registry refer to one another by imports and includes.  `Registry.checkReferences`
makes sure that every reference leads somewhere, and `Registry.linkageOrder` lists the sources so
that each comes after all that it refers to; it fails with the names along a cycle if there is one.
The search goes through the sources in key order, so the answer does not depend on the order in
which they were registered.

`Registry.includedBy` gathers the submodules whose bodies go into a module.
-/

namespace YangSchema

namespace Registry

/-! ## References -/

/-- The sources that `s` refers to, in key order, each once. -/
def dependencies (r : Registry) (s : Source) : Except Fault (List Source) := do
  let imports ← s.imports.mapM r.resolveImport
  let includes ← s.includes.mapM (r.resolveInclude s)
  return orderedBy Source.key (imports ++ includes)

/-- Every reference of `s` must lead to a source of the right kind. -/
def checkSource (r : Registry) (s : Source) : Except Fault Unit := do
  for i in s.imports do
    discard <| located { source := some s.label, location := some i.location,
                         frames := ["import " ++ i.name] } (r.resolveImport i)
  for i in s.includes do
    discard <| located { source := some s.label, location := some i.location,
                         frames := ["include " ++ i.name] } (r.resolveInclude s i)
  discard <| located { source := some s.label, location := some s.root.location } (r.owningModule s)

def checkReferences (r : Registry) : Except Fault Unit :=
  r.sources.forM r.checkSource

/-! ## Order -/

/-- Lists `s` after all that it refers to.  `trail` holds the sources on the way to `s`, and `done`
those that are listed; a source that is met again on its own trail closes a cycle.  The trail never
holds a source twice, so it is at most as long as the registry, and `fuel` counts what is left. -/
def visit (r : Registry) (fuel : Nat) (trail : List Source) (done : List Source) (s : Source) :
    Except Fault (List Source) :=
  if done.any (·.key == s.key) then .ok done
  else if trail.any (·.key == s.key) then
    .error ⟨.dependencyCycle
      ((trail.dropWhile (·.key != s.key)).map Source.name ++ [s.name]), none⟩
  else match fuel with
    | 0 => .error (.nestedInItself s.key.render)
    | fuel + 1 => do
      let targets ← r.dependencies s
      let done ← targets.foldlM (visit r fuel (trail ++ [s])) done
      return done ++ [s]

/-- Every source, each after all that it refers to. -/
def linkageOrder (r : Registry) : Except Fault (List Source) :=
  r.sources.foldlM (r.visit r.size []) []

/-- The sources in linkage order, once all references are known to lead somewhere. -/
def link (r : Registry) : Except Fault (List Source) := do
  r.checkReferences
  r.linkageOrder

/-! ## Submodules -/

/-- Takes sources from the top of `pending`, finds the submodules that they include, and puts the
new ones on top.  The includes of a source are read from the last to the first.  Every source is
put there once, so `fuel` is enough if it exceeds the number of sources. -/
def gatherIncludes (r : Registry) : Nat → List Source → List Source → Except Fault (List Source)
  | 0, _, found => .ok found
  | _, [], found => .ok found
  | fuel + 1, including :: pending, found => do
    let (pending, found) ← including.includes.reverse.foldlM (fun (pending, found) i => do
      let sub ← r.resolveInclude including i
      if found.any (·.key == sub.key) then return (pending, found)
      else return (sub :: pending, found ++ [sub])) (pending, found)
    gatherIncludes r fuel pending found

/-- The submodules that `s` includes, directly or through its submodules, each once. -/
def includedBy (r : Registry) (s : Source) : Except Fault (List Source) :=
  r.gatherIncludes (r.size + 1) [s] []

end Registry

end YangSchema
