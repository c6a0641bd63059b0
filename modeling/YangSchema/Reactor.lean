import YangSchema.Build

/-!
# The reactor

Between its phases a build hands on keys and not sources.  The reactor keeps what it has read in three
maps: the registry, the root statements, and the bindings of the prefixes.  Each phase looks up what
it needs; where a key has no entry, the build is at fault itself and says so
(`InternalProblem.other`).

`Reactor.build` gives the same answer as `buildSchema`, where each source carries its root and the
prefixes are bound again when they are needed.
-/

namespace YangSchema

/-- A map from sources by their keys.  Of several entries of a key the last one put in counts. -/
structure SourceMap (α : Type) where
  entries : List (SourceKey × α) := []

namespace SourceMap

variable {α : Type}

def get? (m : SourceMap α) (k : SourceKey) : Option α :=
  (m.entries.find? (·.1 == k)).map Prod.snd

def insert (m : SourceMap α) (k : SourceKey) (a : α) : SourceMap α := ⟨(k, a) :: m.entries⟩

theorem get?_insert (m : SourceMap α) (k k' : SourceKey) (a : α) :
    (m.insert k a).get? k' = if k == k' then some a else m.get? k' := by
  unfold get? insert
  rw [List.find?_cons]
  cases k == k' <;> rfl

end SourceMap

/-- What a build has read so far. -/
structure Reactor where
  config : BuildConfig := {}
  registry : Registry := .empty
  roots : SourceMap Statement := {}
  contexts : SourceMap Prefixes := {}

namespace Reactor

/-! ## Look-ups -/

/-- What was looked up under a key; `what` says what is missing if there is nothing. -/
def found {α : Type} (what : String) (k : SourceKey) : Option α → Except Fault α
  | some a => .ok a
  | none => .error (.internal (.other ("no " ++ what ++ " " ++ k.render)))

def source (x : Reactor) (k : SourceKey) : Except Fault Source :=
  found "source registered as" k (x.registry.get? k)

def root (x : Reactor) (k : SourceKey) : Except Fault Statement :=
  found "root statement for" k (x.roots.get? k)

def context (x : Reactor) (k : SourceKey) : Except Fault Prefixes :=
  found "prefix context for" k (x.contexts.get? k)

/-! ## The phases -/

/-- Registers a source and keeps its root statement. -/
def preLinkSource (x : Reactor) (p : ParsedSource) : Except Fault Reactor := do
  let root ← p.root.mapError fun message =>
    (Fault.malformed (.other message)).locate (.ofSource p.label)
  let s ← Source.analyze p.label root
  return { x with registry := ← x.registry.register s, roots := x.roots.insert s.key root }

def preLink (x : Reactor) (sources : List ParsedSource) : Except Fault Reactor :=
  sources.foldlM preLinkSource x

/-- The keys of the sources in linkage order. -/
def link (x : Reactor) : Except Fault (List SourceKey) :=
  List.map Source.key <$> x.registry.link

/-- Binds the prefixes of a source. -/
def defineSource (x : Reactor) (k : SourceKey) : Except Fault Reactor := do
  let s ← x.source k
  let prefixes ← located (.ofSource s.label) (Prefixes.ofSource x.registry s)
  return { x with contexts := x.contexts.insert k prefixes }

def define (x : Reactor) (order : List SourceKey) : Except Fault Reactor :=
  order.foldlM defineSource x

/-- Declares what is in a source as part of the module `target`. -/
def declareSource (x : Reactor) (own : ModuleIdentity) (target : ModuleId) (rank : Nat)
    (k : SourceKey) : Declare Unit := do
  let root ← Declare.check (x.root k)
  let prefixes ← Declare.check (x.context k)
  let setting : Setting := { prefixes := { prefixes with own }, target, rank, config := x.config }
  setting.declareSource root

/-- Declares a module and the submodules that go into it. -/
def declareModule (x : Reactor) (rank : Nat) (k : SourceKey) : Declare ModuleId := do
  let s ← Declare.check (x.source k)
  let submodules ← Declare.check (x.registry.includedBy s)
  let own := (← Declare.check (x.context k)).own
  let target ← Declare.edit (Draft.addModule { facts := s.moduleFacts own submodules })
  modify fun w => { w with nextOrder := 0 }
  (k :: submodules.map Source.key).forM (x.declareSource own target rank)
  return target

/-- Declares the modules among the sources, in their order. -/
def declare (x : Reactor) (order : List SourceKey) : Declare (List ModuleId) :=
  let modules := order.filter fun k => (x.registry.get? k).any (!·.isSubmodule)
  modules.zipIdx.mapM fun (k, rank) => x.declareModule rank k

/-- Runs all phases. -/
def build (sources : List ParsedSource) (config : BuildConfig) : Except BuildFailure Schema := do
  let x : Reactor := { config }
  let x ← Phase.sourcePreLinkage.run (x.preLink sources)
  let order ← Phase.linkage.run x.link
  let x ← Phase.statementDefinition.run (x.define order)
  let (modules, w) ← Phase.fullDeclaration.run ((x.declare order).run {})
  Phase.effectiveModel.run ((effectiveModel w.tasks modules).perform w.draft).1

end Reactor

end YangSchema
