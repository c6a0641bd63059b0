import YangSchema.Definition
import YangSchema.Prefixes
import YangSchema.Statement

/-!
# Reading arguments

What statements say by their arguments and by their plain substatements: truth values, numbers,
documentation, constraints, properties, kinds of nodes, and deviates.  Where several substatements
of one kind are given but only one counts, it is the first.
-/

namespace YangSchema

/-! ## Values -/

def readBool (text : String) : Except Fault Bool :=
  match text with
  | "true" => .ok true
  | "false" => .ok false
  | _ => .error (.malformed (.notABoolean text))

/-- One number more than a cardinality can be. -/
def cardinalityLimit : Nat := UInt32.size

/-- A cardinality: decimal digits, perhaps after a plus sign, of a value below the limit. -/
def readNatural (text : String) : Except Fault Nat :=
  let digits := match text.toList with
    | '+' :: digits => digits
    | digits => digits
  if !digits.isEmpty && digits.all Char.isDigit && digitsValue digits < cardinalityLimit then
    .ok (digitsValue digits)
  else .error (.malformed (.notANatural text))

/-- An upper bound; `none` is `unbounded`. -/
def readBound (text : String) : Except Fault (Option Nat) :=
  if text == "unbounded" then .ok none else some <$> readNatural text

namespace Statement

/-- The value that `read` makes of the argument of the first substatement with the given word. -/
def valueOf {α : Type} (read : String → Except Fault α) (w : Word) (s : Statement) :
    Except Fault (Option α) :=
  (s.argumentOf (.word w)).mapM read

/-! ## Parts of definitions -/

def readStatus (text : String) : Except Fault Status :=
  match Status.parse? text with
  | some status => .ok status
  | none => .error (.malformed (.invalidStatus text))

def documentation (s : Statement) : Except Fault Documentation := do
  let status ← s.valueOf readStatus .status
  return {
    description := s.argumentOf (.word .description)
    reference := s.argumentOf (.word .reference)
    status := status.getD .current }

def constraints (s : Statement) : Except Fault Constraints := do
  let mandatory ← s.valueOf readBool .mandatory
  let minElements ← s.valueOf readNatural .minElements
  let maxElements ← s.valueOf readBound .maxElements
  return {
    mandatory, minElements
    maxElements := maxElements.join
    must := s.argumentsOf (.word .must)
    condition := s.argumentOf (.word .when) }

/-- The properties of a node; the `default` of a choice is a case and no value. -/
def properties (s : Statement) (kind : NodeKind) : Properties where
  typeName := s.argumentOf (.word .type)
  units := s.argumentOf (.word .units)
  defaults := if kind.isChoice then [] else s.argumentsOf (.word .defaultWord)
  presence := s.argumentOf (.word .presence)
  unique := s.argumentsOf (.word .unique)
  orderedByUser := s.argumentOf (.word .orderedBy) == some "user"

/-- The names in the `key` of a list. -/
def keys (s : Statement) (b : Prefixes) : Except Fault (List QName) :=
  (Text.words ((s.argumentOf (.word .key)).getD "").toList).mapM fun w => b.qname (String.ofList w)

/-- The kind of the node that the statement defines, if it defines one. -/
def nodeKind? (s : Statement) (b : Prefixes) : Option (Except Fault NodeKind) :=
  match s.keyword with
  | .word w => match w with
    | .container => some (.ok .container)
    | .list => some (.list <$> s.keys b)
    | .leaf => some (.ok .leaf)
    | .leafList => some (.ok .leafList)
    | .choice => some (.ok (.choice ((s.argumentOf (.word .defaultWord)).map b.ownName)))
    | .caseWord => some (.ok (.caseNode false))
    | .anyxml => some (.ok .anyxml)
    | .anydata => some (.ok .anydata)
    | .rpc => some (.ok .rpc)
    | .action => some (.ok .action)
    | .input => some (.ok .input)
    | .output => some (.ok .output)
    | .notification => some (.ok .notification)
    | _ => none
  | _ => none

/-- The name of the node that the statement defines; an input or output has no name of its own. -/
def nodeName (s : Statement) : Except Fault String :=
  match s.keyword with
  | .word .input => .ok "input"
  | .word .output => .ok "output"
  | _ => s.requireArgument

/-- The instance of an extension that the statement is, if it is one. -/
def unknown? (s : Statement) (b : Prefixes) : Option (Except Fault UnknownStatement) :=
  match s.keyword with
  | .extension qualifier name => some do
    return { extension := ⟨← b.moduleOf (some qualifier), name⟩, argument := s.argument }
  | _ => none

/-! ## Deviates -/

/-- The property that a substatement of a deviate states; extensions, descriptions and references
state none. -/
def deviateProperty (s : Statement) : Except Fault (Option DeviateProperty) :=
  let stated {α : Type} (make : α → DeviateProperty) (read : String → Except Fault α) :
      Except Fault (Option DeviateProperty) := do
    return some (make (← read (← s.requireArgument)))
  match s.keyword with
  | .extension .. => .ok none
  | .word w => match w with
    | .config => stated .config readBool
    | .defaultWord => stated .defaultValue .ok
    | .mandatory => stated .mandatory readBool
    | .minElements => stated .minElements readNatural
    | .maxElements => stated .maxElements readBound
    | .must => stated .must .ok
    | .units => stated .units .ok
    | .type => stated .typeName .ok
    | .unique => stated .unique .ok
    | .description | .reference => .ok none
    | _ => .error (.malformedDeviation (.notDeviable s.keyword.text))
  | .other text => .error (.malformedDeviation (.notDeviable text))

def readDeviate (s : Statement) : Except Fault Deviate := do
  let text ← s.requireArgument
  let some kind := DeviateKind.parse? text
    | throw (.malformedDeviation (.unknownKind text))
  let properties := (← s.children.mapM deviateProperty).filterMap id
  if kind == .notSupported && !properties.isEmpty then
    throw (.malformedDeviation .removalWithProperties)
  return { kind, properties }

end Statement

end YangSchema
