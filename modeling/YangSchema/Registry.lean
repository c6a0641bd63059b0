import YangSchema.Ordered
import YangSchema.Source

/-!
# The registry of sources

A registry holds sources in key order, each key once.  A source is asked for by name and, if it
matters, by revision; without a revision the latest one is meant (`Registry.resolve`).  Imports lead
to modules, includes to submodules of the same module, and every source contributes to one module:
itself or its parent.
-/

namespace YangSchema

structure Registry where
  sources : List Source := []
  /-- In key order, each key once. -/
  ordered : Ordered Source.key sources := by exact .nil

namespace Registry

def empty : Registry := {}

instance : Inhabited Registry := ⟨empty⟩

def size (r : Registry) : Nat := r.sources.length

/-- The source with exactly this key. -/
def get? (r : Registry) (k : SourceKey) : Option Source :=
  r.sources.find? (·.key == k)

/-- Adds a source, unless there is one with its key already. -/
def register (r : Registry) (s : Source) : Except Fault Registry :=
  match r.get? s.key with
  | some t => .error ⟨.duplicateModule
      (s.key.render ++ " (from " ++ t.label ++ " and " ++ s.label ++ ")"), none⟩
  | none => .ok ⟨insertBy Source.key s r.sources, ordered_insertBy r.ordered⟩

/-- All sources of a name, the latest last. -/
def named (r : Registry) (name : String) : List Source :=
  r.sources.filter (·.name == name)

/-- The source of this name and revision; the latest of the name if no revision is asked for. -/
def resolve (r : Registry) (name : String) (revision : Option Revision) : Except Fault Source :=
  let found := match revision with
    | some _ => r.get? ⟨name, revision⟩
    | none => (r.named name).getLast?
  match found with
  | some s => .ok s
  | none => .error ⟨.missingModule (SourceKey.render ⟨name, revision⟩), none⟩

/-- The module that an import means. -/
def resolveImport (r : Registry) (i : Import) : Except Fault Source := do
  let target ← r.resolve i.name i.revision
  if target.isSubmodule then throw (.malformed (.importOfSubmodule i.name))
  return target

/-- The submodule that an include made by `including` means. -/
def resolveInclude (r : Registry) (including : Source) (i : Include) : Except Fault Source := do
  let target ← r.resolve i.name i.revision
  match target.parent with
  | some parent =>
    if parent.name == including.ownerName then return target
    else throw (.malformed (.foreignSubmodule target.name parent.name including.ownerName))
  | none => throw (.malformed (.includeOfModule i.name))

/-- The module that a source contributes to: itself, or the latest revision of its parent. -/
def owningModule (r : Registry) (s : Source) : Except Fault Source :=
  match s.parent with
  | none => .ok s
  | some parent => do
    let owner ← r.resolve parent.name none
    if owner.isSubmodule then throw (.malformed (.parentIsSubmodule s.name owner.name))
    return owner

/-- The identity that the definitions of a source are bound to. -/
def effectiveIdentity (r : Registry) (s : Source) : Except Fault ModuleIdentity := do
  let owner ← r.owningModule s
  match owner.namespaceUri with
  | some uri => return ⟨uri, owner.revision⟩
  | none => throw (.internal (.withoutNamespace owner.name))

end Registry

end YangSchema
