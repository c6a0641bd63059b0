import YangSchema.Fault
import YangSchema.Keyword

/-!
# Statements

A source is a tree of statements.  A statement has a keyword, perhaps an argument, a position, and
substatements in source order.  `walk` visits a statement and everything below it, a statement
before its substatements and these from first to last, and stops at the first fault.
-/

namespace YangSchema

structure Statement where
  keyword : Keyword
  argument : Option String := none
  location : Location := .unknown
  children : List Statement := []

namespace Statement

instance : Inhabited Statement := ⟨{ keyword := .other "" }⟩

/-- Keyword and argument, without the substatements. -/
def render (s : Statement) : String :=
  match s.argument with
  | some a => s.keyword.text ++ " " ++ a
  | none => s.keyword.text

/-- The trace of a fault that arises at this statement of `source`. -/
def trace (source : String) (s : Statement) : Trace :=
  { source := some source, location := some s.location, frames := [s.render] }

/-- The argument; a statement without one is at fault. -/
def requireArgument (s : Statement) : Except Fault String :=
  match s.argument with
  | some a => .ok a
  | none => .error (.malformed (.missingArgument s.keyword.text))

/-- The first substatement with the given keyword. -/
def first? (k : Keyword) (s : Statement) : Option Statement :=
  s.children.find? (·.keyword == k)

/-- All substatements with the given keyword. -/
def all (k : Keyword) (s : Statement) : List Statement :=
  s.children.filter (·.keyword == k)

/-- The argument of the first substatement with the given keyword. -/
def argumentOf (k : Keyword) (s : Statement) : Option String :=
  (s.first? k).bind argument

/-- The arguments of the substatements with the given keyword that have one. -/
def argumentsOf (k : Keyword) (s : Statement) : List String :=
  (s.all k).filterMap argument

mutual

/-- The statement and everything below it, a statement before its substatements. -/
def preorder : Statement → List Statement
  | ⟨k, a, l, children⟩ => ⟨k, a, l, children⟩ :: preorderAll children

def preorderAll : List Statement → List Statement
  | [] => []
  | s :: rest => preorder s ++ preorderAll rest

end

/-- Visits the statement and everything below it. -/
def walk {m : Type → Type} [Monad m] (visit : Statement → m Unit) (s : Statement) : m Unit :=
  s.preorder.forM visit

mutual

/-- How many statements are on the longest way down, this one included. -/
def depth : Statement → Nat
  | ⟨_, _, _, children⟩ => depthAll children + 1

def depthAll : List Statement → Nat
  | [] => 0
  | s :: rest => max (depth s) (depthAll rest)

end

/-! ## Lemmas -/

theorem preorderAll_eq_flatMap (l : List Statement) : preorderAll l = l.flatMap preorder := by
  induction l with
  | nil => simp [preorderAll]
  | cons s l ih => simp [preorderAll, ih]

theorem preorder_eq (s : Statement) : s.preorder = s :: s.children.flatMap preorder := by
  cases s
  simp [preorder, preorderAll_eq_flatMap]

theorem depth_le_depthAll {s : Statement} {l : List Statement} (h : s ∈ l) :
    s.depth ≤ depthAll l := by
  induction l with
  | nil => simp at h
  | cons t l ih =>
    rw [depthAll]
    rcases List.mem_cons.1 h with rfl | h
    · omega
    · have := ih h
      omega

/-- A substatement is less deep. -/
theorem depth_lt_of_mem_children {s t : Statement} (h : t ∈ s.children) : t.depth < s.depth := by
  cases s with
  | mk k a l children =>
    rw [depth]
    exact Nat.lt_succ_of_le (depth_le_depthAll h)

end Statement

end YangSchema
