import YangSchema.Text.Invisible

/-!
# Quoted text

A quoted text stands between double quotes.  The double quote, the backslash and four common
controls are written with a backslash, every other invisible character by its number in base 16,
and all else as itself.
-/

namespace YangSchema.Text

/-- The digits of a code point in base 16, in lower case. -/
def hexDigits (n : Nat) : List Char := Nat.toDigits 16 n

/-- How one character is written between quotes. -/
def quoteChar (c : Char) : List Char :=
  match c with
  | '\x00' => ['\\', '0']
  | '\t' => ['\\', 't']
  | '\n' => ['\\', 'n']
  | '\r' => ['\\', 'r']
  | '"' => ['\\', '"']
  | '\\' => ['\\', '\\']
  | c => if isInvisible c then ['\\', 'u', '\x7b'] ++ hexDigits c.toNat ++ ['\x7d'] else [c]

/-- The text between double quotes. -/
def quoted (s : String) : String :=
  String.ofList ('"' :: s.toList.flatMap quoteChar ++ ['"'])

example : quoted "a\"b\\" = "\"a\\\"b\\\\\"" := by decide +kernel
example : quoted "\n\t" = "\"\\n\\t\"" := by decide +kernel
example : quoted "\u1160" = "\"\\u\x7b1160\x7d\"" := by decide +kernel
example : quoted "ｶﾞ" = "\"ｶﾞ\"" := by decide +kernel
example : quoted "\x7f" = "\"\\u\x7b7f\x7d\"" := by decide +kernel

end YangSchema.Text
