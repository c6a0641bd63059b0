import YangSchema.Interner
import YangSchema.PathExpr
import YangSchema.Registry
import YangSchema.SchemaPath

/-!
# Prefix bindings

A source binds its own prefix to the module that it contributes to, and one prefix for each import
to the imported module.  No prefix is bound twice.  Names and paths are written with these prefixes;
a name without one belongs to the own module.

Resolution needs only the bindings.  `internQName` and `internPath` resolve and, besides, take the
local names into an interner, up to the first step that cannot be resolved.
-/

namespace YangSchema

structure Prefixes where
  /-- What the source is called. -/
  source : String
  ownPrefix : String
  own : ModuleIdentity
  /-- Prefix and module of every import, in the order of the prefixes. -/
  imports : List (String × ModuleIdentity) := []

namespace Prefixes

/-- The module that an import binds to the prefix `p`. -/
def imported? (b : Prefixes) (p : String) : Option ModuleIdentity :=
  (b.imports.find? (·.1 == p)).map Prod.snd

/-- Binds one more prefix. -/
def add (b : Prefixes) (p : String) (m : ModuleIdentity) : Except Fault Prefixes :=
  if p == b.ownPrefix || (b.imported? p).isSome then
    .error (.malformed (.prefixBoundTwice p b.source))
  else .ok { b with imports := insertBy Prod.fst (p, m) b.imports }

/-- The bindings of a source, its imports looked up in the registry. -/
def ofSource (r : Registry) (s : Source) : Except Fault Prefixes := do
  let own ← r.effectiveIdentity s
  s.imports.foldlM (fun b i => do
      let target ← r.resolveImport i
      b.add i.binding (← r.effectiveIdentity target))
    { source := s.label, ownPrefix := s.ownPrefix, own }

/-! ## Resolution -/

/-- The module bound to a prefix; the own module where none is written. -/
def moduleOf (b : Prefixes) (p : Option String) : Except Fault ModuleIdentity :=
  match p with
  | none => .ok b.own
  | some p =>
    if p == b.ownPrefix then .ok b.own
    else match b.imported? p with
      | some m => .ok m
      | none => .error (.unresolved "prefix" p)

/-- The prefix and the local name of a written name. -/
def splitName (text : String) : Option String × String :=
  match Text.cut ':' text.toList with
  | some (p, name) => (some (String.ofList p), String.ofList name)
  | none => (none, text)

/-- The name that is written `name` or `prefix:name`. -/
def qname (b : Prefixes) (text : String) : Except Fault QName := do
  let (p, name) := splitName text
  if name.isEmpty then throw (.malformed (.emptyIdentifier text))
  return ⟨← b.moduleOf p, name⟩

/-- A name in the module that the source contributes to. -/
def ownName (b : Prefixes) (name : String) : QName := ⟨b.own, name⟩

def step (b : Prefixes) (s : PathStep) : Except Fault QName := do
  return ⟨← b.moduleOf s.qualifier, s.localName⟩

/-- The path with every step resolved. -/
def path (b : Prefixes) (e : PathExpr) : Except Fault SchemaPath := do
  return ⟨e.absolute, ← e.steps.mapM b.step⟩

/-! ## Resolution with interning -/

/-- Resolves a written name; the local name is interned if that succeeds. -/
def internQName (b : Prefixes) (text : String) (i : Interner) : Except Fault QName × Interner :=
  match b.qname text with
  | .ok q => (.ok q, (i.qname q.owner q.localName).2)
  | .error f => (.error f, i)

/-- Resolves a path; the local names before the first unresolved step are interned. -/
def internPath (b : Prefixes) (e : PathExpr) (i : Interner) : Except Fault SchemaPath × Interner :=
  (b.path e, (e.steps.takeWhile fun s => (b.step s).toBool).foldl
    (fun i s => (i.intern s.localName).2) i)

end Prefixes

end YangSchema
