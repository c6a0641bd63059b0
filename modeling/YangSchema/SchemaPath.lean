import YangSchema.QName

/-!
# Schema paths

A schema path is the list of the names on the way to a schema node, from the schema root or from
some other node.  Paths are ordered by their steps, a path before its extensions; of two paths with
the same steps the relative one comes first.
-/

namespace YangSchema

structure SchemaPath where
  /-- Whether the path starts at the schema root. -/
  absolute : Bool
  steps : List QName
deriving DecidableEq, Inhabited

namespace SchemaPath

/-- The schema root. -/
def root : SchemaPath := ⟨true, []⟩

/-- The place that a relative path starts from. -/
def here : SchemaPath := ⟨false, []⟩

/-- One step further down. -/
def child (p : SchemaPath) (q : QName) : SchemaPath := { p with steps := p.steps ++ [q] }

/-- From the end of `p` on along `q`; where `q` starts does not matter. -/
def join (p q : SchemaPath) : SchemaPath := { p with steps := p.steps ++ q.steps }

/-- One step back, unless there is none. -/
def parent? (p : SchemaPath) : Option SchemaPath :=
  if p.steps.isEmpty then none else some { p with steps := p.steps.dropLast }

def first? (p : SchemaPath) : Option QName := p.steps.head?
def last? (p : SchemaPath) : Option QName := p.steps.getLast?
def length (p : SchemaPath) : Nat := p.steps.length
def isEmpty (p : SchemaPath) : Bool := p.steps.isEmpty

/-- Whether `q` goes on from `p`, or ends there. -/
def isAncestorOf (p q : SchemaPath) : Bool := p.steps.isPrefixOf q.steps

/-- Every step in the module `m`. -/
def bindTo (m : ModuleIdentity) (p : SchemaPath) : SchemaPath :=
  { p with steps := p.steps.map (QName.bindTo m) }

instance : Ord SchemaPath := ⟨compareLex (compareOn steps) (compareOn absolute)⟩

instance : Std.TransOrd SchemaPath :=
  inferInstanceAs (Std.TransCmp (compareLex (compareOn steps) (compareOn absolute)))

instance : Std.LawfulEqOrd SchemaPath where
  eq_of_compare {a b} h := by
    obtain ⟨hs, ha⟩ := compareLex_eq_eq.1 h
    have hs : a.steps = b.steps := Std.LawfulEqOrd.eq_of_compare hs
    have ha : a.absolute = b.absolute := Std.LawfulEqOrd.eq_of_compare ha
    cases a; cases b; simp_all

/-- The given texts of the steps, each after a slash; the first slash only for an absolute path. -/
def renderWith (step : QName → String) (p : SchemaPath) : String :=
  if p.isEmpty then (if p.absolute then "/" else ".")
  else (if p.absolute then "/" else "") ++ "/".intercalate (p.steps.map step)

/-- The local names of the steps. -/
def render (p : SchemaPath) : String := p.renderWith QName.localName

/-- The qualified names of the steps. -/
def renderQualified (p : SchemaPath) : String := p.renderWith QName.render

/-! ## Lemmas -/

@[simp] theorem child_steps (p : SchemaPath) (q : QName) : (p.child q).steps = p.steps ++ [q] := rfl
@[simp] theorem child_absolute (p : SchemaPath) (q : QName) :
    (p.child q).absolute = p.absolute := rfl

theorem parent?_child (p : SchemaPath) (q : QName) : (p.child q).parent? = some p := by
  simp [parent?]

theorem isAncestorOf_iff {p q : SchemaPath} : p.isAncestorOf q = true ↔ p.steps <+: q.steps := by
  simp [isAncestorOf, List.isPrefixOf_iff_prefix]

end SchemaPath

end YangSchema
