import YangSchema.Declaration.Module
import YangSchema.Draft.Freeze
import YangSchema.Inference.Deviate
import YangSchema.Inference.GroupingCycle
import YangSchema.Inference.Settle
import YangSchema.Linkage
import YangSchema.Schema.Context

/-!
# Building a schema

A build reads its sources one phase after the other, every source in each phase: the headers are
analyzed and registered, references are linked, prefixes are bound, bodies are declared, and at last
uses, augmentations and deviations are carried out and the result is frozen.  The first fault ends
the build, and is reported with its phase.
-/

namespace YangSchema

/-! ## Phases -/

inductive Phase where
  | sourcePreLinkage
  | linkage
  | statementDefinition
  | fullDeclaration
  | effectiveModel
deriving DecidableEq

namespace Phase

/-- All phases in the order in which they run. -/
def all : List Phase :=
  [sourcePreLinkage, linkage, statementDefinition, fullDeclaration, effectiveModel]

def name : Phase → String
  | sourcePreLinkage => "source pre-linkage"
  | linkage => "linkage"
  | statementDefinition => "statement definition"
  | fullDeclaration => "full declaration"
  | effectiveModel => "effective model"

theorem mem_all (p : Phase) : p ∈ all := by cases p <;> decide

end Phase

/-- A fault and the phase that it ended. -/
structure BuildFailure where
  phase : Phase
  fault : Fault
deriving DecidableEq

namespace BuildFailure

def render (f : BuildFailure) : String :=
  "build failed during " ++ f.phase.name ++ ": " ++ f.fault.render

end BuildFailure

/-- What a phase computes; its faults are reported with the phase. -/
def Phase.run {α : Type} (p : Phase) (x : Except Fault α) : Except BuildFailure α :=
  x.mapError (BuildFailure.mk p)

/-! ## The phases in turn -/

/-- A source as it is handed in: its root statement, or why there is none. -/
structure ParsedSource where
  label : String
  root : Except String Statement

namespace ParsedSource

/-- Analyzes the header of a source. -/
def analyze (p : ParsedSource) : Except Fault Source :=
  match p.root with
  | .ok root => Source.analyze p.label root
  | .error message =>
    .error ((Fault.malformed (.other message)).locate (.ofSource p.label))

end ParsedSource

/-- Analyzes and registers all sources. -/
def collectSources (sources : List ParsedSource) : Except Fault Registry :=
  sources.foldlM (fun r p => do r.register (← p.analyze)) .empty

/-- Makes sure that the prefixes of every source can be bound. -/
def checkPrefixes (r : Registry) (order : List Source) : Except Fault Unit :=
  order.forM fun s => discard <| located (.ofSource s.label) (Prefixes.ofSource r s)

/-- Declares the modules in linkage order. -/
def declareModules (r : Registry) (config : BuildConfig) (order : List Source) :
    Declare (List ModuleId) :=
  ((order.filter (!·.isSubmodule)).zipIdx).mapM fun (s, rank) => declareModule r config rank s

/-- Carries out the tasks and freezes the modules. -/
def effectiveModel (tasks : Tasks) (modules : List ModuleId) : Edit Schema := do
  let d ← get
  liftM (checkGroupings d tasks.uses)
  infer tasks
  applyDeviations tasks.deviations
  return ⟨← modules.mapM Draft.freezeModule⟩

/-- Builds a schema from sources. -/
def buildSchema (sources : List ParsedSource) (config : BuildConfig) :
    Except BuildFailure Schema := do
  let r ← Phase.sourcePreLinkage.run (collectSources sources)
  let order ← Phase.linkage.run r.link
  Phase.statementDefinition.run (checkPrefixes r order)
  let (modules, w) ← Phase.fullDeclaration.run ((declareModules r config order).run {})
  Phase.effectiveModel.run ((effectiveModel w.tasks modules).perform w.draft).1

/-! ## Builds as values -/

/-- A set of sources together with a configuration. -/
structure BuildPlan where
  sources : List ParsedSource := []
  config : BuildConfig := {}

namespace BuildPlan

def addSource (b : BuildPlan) (s : ParsedSource) : BuildPlan :=
  { b with sources := b.sources ++ [s] }

def addSources (b : BuildPlan) (ss : List ParsedSource) : BuildPlan :=
  { b with sources := b.sources ++ ss }

def withConfig (b : BuildPlan) (c : BuildConfig) : BuildPlan := { b with config := c }

def sourceCount (b : BuildPlan) : Nat := b.sources.length

def run (b : BuildPlan) : Except BuildFailure Schema := buildSchema b.sources b.config

/-- The names of the sources and the policy, for diagnostics. -/
def describe (b : BuildPlan) : String :=
  let policy := match b.config.supportedDeviations with
    | .all => "All"
    | .restricted m => "Restricted(" ++ toString m.size ++ ")"
  "BuildAction \x7b sources: [" ++ ", ".intercalate (b.sources.map fun s => Text.quoted s.label) ++
    "], config: BuildConfig \x7b supported_deviations: " ++ policy ++ " \x7d \x7d"

end BuildPlan

end YangSchema
