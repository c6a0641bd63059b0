import YangSchema.SchemaPath
import YangSchema.Text.Quoted

/-!
# Deviations

A deviation says how a module falls short of another one at one node: the node is not supported, or
properties of it are added, replaced or deleted.
-/

namespace YangSchema

inductive DeviateKind where
  /-- The node is removed. -/
  | notSupported
  | add
  | replace
  | delete
deriving DecidableEq

namespace DeviateKind

def text : DeviateKind → String
  | notSupported => "not-supported"
  | add => "add"
  | replace => "replace"
  | delete => "delete"

/-- The kind that is written `s`. -/
def parse? (s : String) : Option DeviateKind :=
  [notSupported, add, replace, delete].find? (·.text == s)

theorem parse?_text (k : DeviateKind) : parse? k.text = some k := by cases k <;> decide

end DeviateKind

/-- A property of a node together with the value that a deviation gives it. -/
inductive DeviateProperty where
  | config (value : Bool)
  | defaultValue (value : String)
  | mandatory (value : Bool)
  | minElements (value : Nat)
  /-- `none` is `unbounded`. -/
  | maxElements (value : Option Nat)
  | must (value : String)
  | units (value : String)
  | typeName (value : String)
  | unique (value : String)
deriving DecidableEq

namespace DeviateProperty

def keyword : DeviateProperty → String
  | config _ => "config"
  | defaultValue _ => "default"
  | mandatory _ => "mandatory"
  | minElements _ => "min-elements"
  | maxElements _ => "max-elements"
  | must _ => "must"
  | units _ => "units"
  | typeName _ => "type"
  | unique _ => "unique"

/-- Whether a node may have several values of the property. -/
def isMultiValued : DeviateProperty → Bool
  | must _ | unique _ | defaultValue _ => true
  | _ => false

/-- The value alone; texts stand between quotes. -/
def renderValue : DeviateProperty → String
  | config b | mandatory b => toString b
  | minElements n | maxElements (some n) => toString n
  | maxElements none => "unbounded"
  | defaultValue s | must s | units s | typeName s | unique s => Text.quoted s

/-- Keyword and value. -/
def render (p : DeviateProperty) : String := p.keyword ++ " " ++ p.renderValue

end DeviateProperty

/-- One change, or the removal, of the deviated node. -/
structure Deviate where
  kind : DeviateKind
  /-- Empty for `not-supported`. -/
  properties : List DeviateProperty
deriving DecidableEq

structure Deviation where
  target : SchemaPath
  /-- In the order in which they take effect. -/
  deviates : List Deviate
  description : Option String := none
  reference : Option String := none
deriving DecidableEq

end YangSchema
