import YangSchema.Location

/-!
# Faults

A fault is a cause and, once somebody has said where it arose, a trace.  Causes are data: the
wording of every one of them is in `Cause.message`, and `Fault.render` puts cause and trace into
one line.

The first trace wins (`Fault.locate`): whoever is nearest to the offending statement describes it,
and the callers further out leave that description alone.
-/

namespace YangSchema

/-! ## Traces -/

/-- Where a fault arose: the source, a position in it, and the statements around it, outermost
first. -/
structure Trace where
  source : Option String := none
  location : Option Location := none
  frames : List String := []
deriving DecidableEq, Inhabited

namespace Trace

def ofSource (source : String) : Trace := { source := some source }

/-- A position is shown only together with the source that it belongs to. -/
def render (t : Trace) : String :=
  let place := match t.source, t.location with
    | some s, some l => ["at " ++ s ++ ":" ++ l.render]
    | some s, none => ["at " ++ s]
    | none, _ => []
  " ".intercalate (place ++ t.frames.map ("in " ++ ·))

end Trace

/-! ## Causes -/

/-- Malformed text and misplaced statements. -/
inductive SyntaxProblem where
  | other (message : String)
  | invalidRevision (text : String)
  | emptyPath (text : String)
  | invalidPathQualifier (qualifier text : String)
  | invalidPathStep (step text : String)
  | emptyIdentifier (text : String)
  | missingArgument (keyword : String)
  | notASource (keyword : String)
  | unknownStatement (keyword : String)
  | missingSubstatement (kind name keyword : String)
  | parentWithoutPrefix
  | importWithoutPrefix (name : String)
  | importOfSubmodule (name : String)
  | includeOfModule (name : String)
  | foreignSubmodule (name parent owner : String)
  | parentIsSubmodule (name parent : String)
  | prefixBoundTwice (binding source : String)
  | cannotContain (kind path child : String)
  | alreadyDefined (name grouping site : String)
  | invalidStatus (text : String)
  | notABoolean (text : String)
  | notANatural (text : String)
  | typedefWithoutType (name : String)
  | notInsideAugment (keyword : String)
  | onlyAtModuleLevel (keyword : String)
  | notADescendantPath (keyword path : String)
  | notAnAbsolutePath (statement path : String)
  | emptyDeviationTarget
deriving DecidableEq

/-- Deviations that contradict the node they deviate, or that say nothing sensible. -/
inductive DeviationProblem where
  | other (message : String)
  | unknownKind (text : String)
  | notDeviable (keyword : String)
  | removalWithProperties
  | alreadyPresent (property path : String)
  | notPresent (property path : String)
  | notAllowed (keyword action path : String)
deriving DecidableEq

/-- Breaches of the library's own rules. -/
inductive InternalProblem where
  | other (message : String)
  | alreadyFrozen (id : String)
  | emptyShorthand (path : String)
  | withoutNamespace (name : String)
deriving DecidableEq

inductive Cause where
  /-- A malformed source. -/
  | malformed (problem : SyntaxProblem)
  /-- Imports and includes that lead back to their start; the first name is repeated last. -/
  | dependencyCycle (names : List String)
  /-- Groupings that use one another in a circle; the first name is repeated last. -/
  | circularGrouping (names : List String)
  /-- A reference to something that is not there. -/
  | unresolved (what target : String)
  /-- An import or include of a source that was not supplied. -/
  | missingModule (name : String)
  | duplicateModule (name : String)
  /-- An augmentation brings a child whose name is taken at its target. -/
  | augmentationConflict (target identifier : String)
  /-- An augmentation of a node that cannot hold children. -/
  | invalidAugmentTarget (target kind : String)
  /-- A deviation that may not be declared where it stands. -/
  | illegalDeviation (message : String)
  | malformedDeviation (problem : DeviationProblem)
  | internal (problem : InternalProblem)
  /-- A definition that contains itself or refers back to itself, so that going down it would never
  end. -/
  | nestedInItself (id : String)
deriving DecidableEq

namespace SyntaxProblem

def message : SyntaxProblem → String
  | other message => message
  | invalidRevision text => s!"invalid revision date '{text}'"
  | emptyPath text => s!"empty schema path '{text}'"
  | invalidPathQualifier qualifier text => s!"invalid prefix '{qualifier}' in schema path '{text}'"
  | invalidPathStep step text => s!"invalid step '{step}' in schema path '{text}'"
  | emptyIdentifier text => s!"empty identifier in '{text}'"
  | missingArgument keyword => s!"'{keyword}' requires an argument"
  | notASource keyword => s!"expected 'module' or 'submodule', found '{keyword}'"
  | unknownStatement keyword => s!"unknown statement '{keyword}'"
  | missingSubstatement kind name keyword => s!"{kind} '{name}' is missing '{keyword}'"
  | parentWithoutPrefix => "'belongs-to' is missing 'prefix'"
  | importWithoutPrefix name => s!"import of '{name}' is missing 'prefix'"
  | importOfSubmodule name => s!"import of '{name}' names a submodule"
  | includeOfModule name => s!"include of '{name}' names a module"
  | foreignSubmodule name parent owner =>
    s!"included submodule '{name}' belongs to '{parent}', not '{owner}'"
  | parentIsSubmodule name parent => s!"submodule '{name}' belongs to submodule '{parent}'"
  | prefixBoundTwice binding source => s!"prefix '{binding}' is bound twice in '{source}'"
  | cannotContain kind path child => s!"{kind} {path} cannot contain {child}"
  | alreadyDefined name grouping site =>
    s!"'{name}' from grouping '{grouping}' is already defined in {site}"
  | invalidStatus text => s!"invalid status '{text}'"
  | notABoolean text => s!"expected 'true' or 'false', found '{text}'"
  | notANatural text => s!"expected a non-negative integer, found '{text}'"
  | typedefWithoutType name => s!"typedef '{name}' is missing 'type'"
  | notInsideAugment keyword => s!"'{keyword}' is not allowed inside 'augment'"
  | onlyAtModuleLevel keyword => s!"'{keyword}' is only allowed at module level"
  | notADescendantPath keyword path =>
    s!"'{keyword}' inside 'uses' requires a descendant path, found '{path}'"
  | notAnAbsolutePath statement path => s!"{statement} requires an absolute path, found '{path}'"
  | emptyDeviationTarget => "'deviation' target is empty"

end SyntaxProblem

namespace DeviationProblem

def message : DeviationProblem → String
  | other message => message
  | unknownKind text => s!"unknown deviate kind '{text}'"
  | notDeviable keyword => s!"'{keyword}' cannot be deviated"
  | removalWithProperties => "'deviate not-supported' takes no properties"
  | alreadyPresent property path => s!"cannot add {property} to {path}: already present"
  | notPresent property path => s!"{property} is not present on {path}"
  | notAllowed keyword action path => s!"'{keyword}' cannot be {action} on {path}"

end DeviationProblem

namespace InternalProblem

def message : InternalProblem → String
  | other message => message
  | alreadyFrozen id => s!"{id} is already frozen"
  | emptyShorthand path => s!"shorthand case {path} has no child"
  | withoutNamespace name => s!"module '{name}' has no namespace"

end InternalProblem

namespace Cause

def message : Cause → String
  | malformed problem => s!"syntax error: {problem.message}"
  | dependencyCycle names => "dependency cycle: " ++ " -> ".intercalate names
  | circularGrouping names => "circular grouping: " ++ " -> ".intercalate names
  | unresolved what target => s!"unresolved {what}: {target}"
  | missingModule name => s!"missing module: {name}"
  | duplicateModule name => s!"duplicate module: {name}"
  | augmentationConflict target identifier =>
    s!"augmentation conflict at {target}: {identifier} already defined"
  | invalidAugmentTarget target kind => s!"{target} is a {kind} and cannot be augmented"
  | illegalDeviation message => message
  | malformedDeviation problem => s!"malformed deviation: {problem.message}"
  | internal problem => s!"internal error: {problem.message}"
  | nestedInItself id => s!"{id} is nested in itself"

/-- A reference, augmentation or deviation that could not be carried out. -/
def isInference : Cause → Bool
  | unresolved .. | augmentationConflict .. | invalidAugmentTarget .. | illegalDeviation _
  | malformedDeviation _ => true
  | _ => false

end Cause

/-! ## Faults -/

structure Fault where
  cause : Cause
  trace : Option Trace := none
deriving DecidableEq

namespace Fault

def malformed (problem : SyntaxProblem) : Fault := ⟨.malformed problem, none⟩
def unresolved (what target : String) : Fault := ⟨.unresolved what target, none⟩
def malformedDeviation (problem : DeviationProblem) : Fault := ⟨.malformedDeviation problem, none⟩
def internal (problem : InternalProblem) : Fault := ⟨.internal problem, none⟩
def nestedInItself (id : String) : Fault := ⟨.nestedInItself id, none⟩

/-- Describes where the fault arose, unless that is known already. -/
def locate (t : Trace) (f : Fault) : Fault :=
  { f with trace := f.trace <|> some t }

/-- The cause, and after a blank the trace, if there is one. -/
def render (f : Fault) : String :=
  f.cause.message ++ match f.trace with
    | some t => " " ++ t.render
    | none => ""

@[simp] theorem locate_cause (t : Trace) (f : Fault) : (f.locate t).cause = f.cause := rfl

/-- A trace that is there stays. -/
@[simp] theorem locate_locate (t u : Trace) (f : Fault) :
    (f.locate t).locate u = f.locate t := by
  cases h : f.trace <;> simp [locate, h]

end Fault

/-! ## Locating the faults of a computation -/

/-- Runs `x`; a fault of it that has no trace yet gets `t`. -/
def located {m : Type → Type} [MonadExceptOf Fault m] {α : Type} (t : Trace) (x : m α) : m α :=
  tryCatchThe Fault x fun f => throwThe Fault (f.locate t)

end YangSchema
