/-!
# Positions in source text

A position is a line and a column, both counted from 1; line 0 says that the position was never
recorded.  Positions are ordered by line, then by column.
-/

namespace YangSchema

/-- Where a statement starts in its source. -/
structure Location where
  line : Nat
  column : Nat
deriving DecidableEq, Inhabited

namespace Location

/-- The position of a statement that was not read from a text. -/
def unknown : Location := ⟨0, 0⟩

def isUnknown (l : Location) : Bool := l.line == 0

/-- Lines are compared first. -/
instance : Ord Location := ⟨compareLex (compareOn line) (compareOn column)⟩

/-- `line:column`. -/
def render (l : Location) : String := toString l.line ++ ":" ++ toString l.column

end Location

end YangSchema
