import YangSchema.Text.Split

/-!
# Blank characters

The blanks are the characters with the property White_Space.  `trim` takes them off both ends of a
text and `words` gives the runs of other characters between them.
-/

namespace YangSchema.Text

/-- The characters with the property White_Space. -/
def isBlank (c : Char) : Bool :=
  let n := c.toNat
  (9 ≤ n && n ≤ 13) || n == 0x20 || n == 0x85 || n == 0xA0 || n == 0x1680 ||
  (0x2000 ≤ n && n ≤ 0x200A) || n == 0x2028 || n == 0x2029 || n == 0x202F || n == 0x205F ||
  n == 0x3000

/-- The text without the blanks at its two ends. -/
def trim (s : List Char) : List Char :=
  ((s.dropWhile isBlank).reverse.dropWhile isBlank).reverse

/-- The runs of characters that are not blank. -/
def words (s : List Char) : List (List Char) :=
  (fieldsBy isBlank s).filter fun w => !w.isEmpty

end YangSchema.Text
