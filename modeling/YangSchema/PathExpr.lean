import YangSchema.Fault
import YangSchema.Text.Blank

/-!
# Written paths

A written path, as it stands in `augment`, `deviation` and `refine`, is a sequence of steps between
slashes; a step is an identifier, with or without a prefix and a colon in front.  A path that
starts with a slash is absolute.  Blanks around the path do not count.  The prefixes are resolved
later, by the prefix bindings of the source.
-/

namespace YangSchema

/-! ## Identifiers -/

/-- A letter of the ASCII alphabet or an underscore. -/
def isIdentifierStart (c : Char) : Bool := c.isAlpha || c == '_'

/-- A letter or digit of ASCII, or one of `_`, `-`, `.`. -/
def isIdentifierPart (c : Char) : Bool := c.isAlphanum || c == '_' || c == '-' || c == '.'

def isIdentifier : List Char → Bool
  | [] => false
  | c :: s => isIdentifierStart c && s.all isIdentifierPart

/-! ## Paths -/

structure PathStep where
  /-- What stands before the colon, if there is one. -/
  qualifier : Option String
  localName : String
deriving DecidableEq

structure PathExpr where
  absolute : Bool
  steps : List PathStep
deriving DecidableEq

namespace PathStep

def render (s : PathStep) : String :=
  match s.qualifier with
  | some p => p ++ ":" ++ s.localName
  | none => s.localName

/-- Reads one step of the path `text`; the prefix is checked before the name. -/
def parse (text : String) (step : List Char) : Except Fault PathStep :=
  let named (qualifier : Option String) (name : List Char) : Except Fault PathStep :=
    if isIdentifier name then .ok ⟨qualifier, String.ofList name⟩
    else .error (.malformed (.invalidPathStep (String.ofList step) text))
  match Text.cut ':' step with
  | some (qualifier, name) =>
    if isIdentifier qualifier then named (some (String.ofList qualifier)) name
    else .error (.malformed (.invalidPathQualifier (String.ofList qualifier) text))
  | none => named none step

end PathStep

namespace PathExpr

/-- The steps between slashes, with a slash in front when the path is absolute. -/
def render (e : PathExpr) : String :=
  (if e.absolute && !e.steps.isEmpty then "/" else "") ++
    "/".intercalate (e.steps.map PathStep.render)

/-- Reads a path. -/
def parse (text : String) : Except Fault PathExpr :=
  let (absolute, body) := match Text.trim text.toList with
    | '/' :: body => (true, body)
    | body => (false, body)
  if body.isEmpty then .error (.malformed (.emptyPath text))
  else do
    let steps ← (Text.fields '/' body).mapM (PathStep.parse text)
    return ⟨absolute, steps⟩

end PathExpr

end YangSchema
