import YangSchema.Fault

/-!
# Revision dates

A revision is a text `YYYY-MM-DD` with a month from 1 to 12 and a day from 1 to 31.  Revisions are
ordered as texts; the format has a fixed width, so this is the order of the dates.
-/

namespace YangSchema

/-- The number that two or four digits stand for. -/
def digitsValue (ds : List Char) : Nat :=
  ds.foldl (fun n d => 10 * n + (d.toNat - '0'.toNat)) 0

/-- Year, month and day of a text of the form `YYYY-MM-DD`, if month and day are in range. -/
def readDate : List Char → Option (Nat × Nat × Nat)
  | [y₁, y₂, y₃, y₄, '-', m₁, m₂, '-', d₁, d₂] =>
    let month := digitsValue [m₁, m₂]
    let day := digitsValue [d₁, d₂]
    if [y₁, y₂, y₃, y₄, m₁, m₂, d₁, d₂].all Char.isDigit &&
        (1 ≤ month && month ≤ 12) && (1 ≤ day && day ≤ 31) then
      some (digitsValue [y₁, y₂, y₃, y₄], month, day)
    else none
  | _ => none

/-- A date that labels one state of a module. -/
structure Revision where
  text : String
  isDate : (readDate text.toList).isSome = true

namespace Revision

theorem ext {r s : Revision} (h : r.text = s.text) : r = s := by
  cases r; cases s; simp_all

theorem text_inj {r s : Revision} : r.text = s.text ↔ r = s := ⟨ext, fun h => h ▸ rfl⟩

instance : DecidableEq Revision := fun _ _ => decidable_of_iff _ text_inj

/-- Year, month and day. -/
def date (r : Revision) : Nat × Nat × Nat := (readDate r.text.toList).get r.isDate

/-- Reads a revision date. -/
def parse (text : String) : Except Fault Revision :=
  if h : (readDate text.toList).isSome = true then .ok ⟨text, h⟩
  else .error (.malformed (.invalidRevision text))

instance : Ord Revision := ⟨compareOn text⟩

instance : Std.TransOrd Revision := inferInstanceAs (Std.TransCmp (compareOn text))

instance : Std.LawfulEqOrd Revision where
  eq_of_compare h := ext (Std.LawfulEqOrd.eq_of_compare (α := String) h)

/-- The one revision is before the other: none before every date, dates as texts. -/
def Before : Option Revision → Option Revision → Prop
  | none, some _ => True
  | some v, some w => v.text < w.text
  | _, none => False

/-! ## Lemmas -/

theorem parse_text (r : Revision) : parse r.text = .ok r := by
  simp [parse, r.isDate]

theorem parse_eq_ok_iff {text : String} {r : Revision} : parse text = .ok r ↔ r.text = text := by
  constructor
  · intro h
    unfold parse at h
    split at h
    · cases h; rfl
    · cases h
  · rintro rfl
    exact parse_text r

theorem compare_eq_lt {v w : Option Revision} : compare v w = .lt ↔ Before v w := by
  cases v with
  | none => cases w <;> simp [Before, compare]
  | some v =>
    cases w with
    | none => simp [Before, compare]
    | some w => exact compareOfLessAndEq_eq_lt (x := v.text) (y := w.text)

end Revision

end YangSchema
