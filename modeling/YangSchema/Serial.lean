import YangSchema.DeviationPolicy
import YangSchema.SchemaPath

/-!
# Serial forms

Identities, paths and policies can be kept as plain values: texts, flags, lists and records.
`encode` gives the serial form of a thing and `decode?` reads it; a record may hold more than what is
asked for, and may also be given as the list of its fields in order.  What is no value of the type is
refused.
-/

namespace YangSchema

/-- A plain value. -/
inductive Value where
  | null
  | flag (b : Bool)
  | number (digits : String)
  | text (s : String)
  | list (vs : List Value)
  | record (fields : List (String × Value))
deriving Inhabited

namespace Value

/-- The fields of the given names, in this order: `none` for a field that a record does not have. -/
def fields? (names : List String) : Value → Option (List (Option Value))
  | record fs => some (names.map fun n => (fs.find? (·.1 == n)).map Prod.snd)
  | list vs => if vs.length = names.length then some (vs.map some) else none
  | _ => none

def list? : Value → Option (List Value)
  | list vs => some vs
  | _ => none

def text? : Value → Option String
  | text s => some s
  | _ => none

def flag? : Value → Option Bool
  | flag b => some b
  | _ => none

/-- A value that may be missing: `null` says that it is. -/
def optional? {α : Type} (decode : Value → Option α) : Value → Option (Option α)
  | null => some none
  | v => (decode v).map some

end Value

namespace Revision

def encode (r : Revision) : Value := .text r.text

def decode? (v : Value) : Option Revision := v.text?.bind fun s => (parse s).toOption

end Revision

namespace ModuleIdentity

def encode (m : ModuleIdentity) : Value :=
  .record [("namespace", .text m.namespaceUri),
    ("revision", (m.revision.map Revision.encode).getD .null)]

/-- The revision may be left out of a record. -/
def decode? (v : Value) : Option ModuleIdentity :=
  match v.fields? ["namespace", "revision"] with
  | some [some uri, revision] => do
    return ⟨← uri.text?, ← (revision.getD .null).optional? Revision.decode?⟩
  | _ => none

end ModuleIdentity

namespace QName

def encode (q : QName) : Value :=
  .record [("module", q.owner.encode), ("local_name", .text q.localName)]

def decode? (v : Value) : Option QName :=
  match v.fields? ["module", "local_name"] with
  | some [some owner, some name] => do return ⟨← ModuleIdentity.decode? owner, ← name.text?⟩
  | _ => none

end QName

namespace SchemaPath

def encode (p : SchemaPath) : Value :=
  .record [("absolute", .flag p.absolute), ("steps", .list (p.steps.map QName.encode))]

def decode? (v : Value) : Option SchemaPath :=
  match v.fields? ["absolute", "steps"] with
  | some [some absolute, some steps] => do
    return ⟨← absolute.flag?, ← (← steps.list?).mapM QName.decode?⟩
  | _ => none

end SchemaPath

namespace DeviationMatrix

def encodeRow (row : ModuleIdentity × List ModuleIdentity) : Value :=
  .record [("target", row.1.encode), ("deviating", .list (row.2.map ModuleIdentity.encode))]

/-- One row for each deviated module. -/
def encode (m : DeviationMatrix) : Value := .list (m.rows.map encodeRow)

/-- The pairs of one row. -/
def decodeRow? (v : Value) : Option (List DeviationPair) :=
  match v.fields? ["target", "deviating"] with
  | some [some target, some deviating] => do
    let target ← ModuleIdentity.decode? target
    return (← (← deviating.list?).mapM ModuleIdentity.decode?).map (DeviationPair.mk target)
  | _ => none

/-- Rows may come in any order, and several for one module. -/
def decode? (v : Value) : Option DeviationMatrix := do
  return ofPairs (← (← v.list?).mapM decodeRow?).flatten

end DeviationMatrix

namespace SupportedDeviations

def encode : SupportedDeviations → Value
  | all => .text "All"
  | restricted m => .record [("Restricted", m.encode)]

def decode? : Value → Option SupportedDeviations
  | .text "All" => some all
  | .record [("All", .null)] => some all
  | .record [("Restricted", m)] => (DeviationMatrix.decode? m).map restricted
  | _ => none

end SupportedDeviations

namespace BuildConfig

def encode (c : BuildConfig) : Value :=
  .record [("supported_deviations", c.supportedDeviations.encode)]

def decode? (v : Value) : Option BuildConfig :=
  match v.fields? ["supported_deviations"] with
  | some [some s] => (SupportedDeviations.decode? s).map BuildConfig.mk
  | _ => none

end BuildConfig

end YangSchema
