import YangSchema.Ordered
import YangSchema.QName
import YangSchema.Text.Quoted

/-!
# Which deviations take effect

A build honours either every deviation or those that a matrix lists.  A matrix is a set of pairs: a
module, and one that may deviate it.  The pairs are kept in order and each once, so a set of pairs
is one matrix only; the rows, one for each deviated module, are read off the pairs.
-/

namespace YangSchema

/-- `deviating` may deviate `target`. -/
structure DeviationPair where
  target : ModuleIdentity
  deviating : ModuleIdentity
deriving DecidableEq

namespace DeviationPair

instance : Ord DeviationPair := ⟨compareLex (compareOn target) (compareOn deviating)⟩

instance : Std.TransOrd DeviationPair :=
  inferInstanceAs (Std.TransCmp (compareLex (compareOn target) (compareOn deviating)))

instance : Std.LawfulEqOrd DeviationPair where
  eq_of_compare {a b} h := by
    obtain ⟨ht, hd⟩ := compareLex_eq_eq.1 h
    have ht : a.target = b.target := Std.LawfulEqOrd.eq_of_compare ht
    have hd : a.deviating = b.deviating := Std.LawfulEqOrd.eq_of_compare hd
    cases a; cases b; simp_all

end DeviationPair

structure DeviationMatrix where
  pairs : List DeviationPair := []
  /-- In order, each pair once. -/
  ordered : Ordered id pairs := by exact .nil

namespace DeviationMatrix

/-- The matrix that honours nothing. -/
def empty : DeviationMatrix := {}

theorem ext {a b : DeviationMatrix} (h : a.pairs = b.pairs) : a = b := by
  cases a; cases b; simp_all

instance : DecidableEq DeviationMatrix := fun _ _ => decidable_of_iff _ ⟨ext, fun h => h ▸ rfl⟩

def insert (m : DeviationMatrix) (p : DeviationPair) : DeviationMatrix :=
  ⟨insertBy id p m.pairs, ordered_insertBy m.ordered⟩

def ofPairs (ps : List DeviationPair) : DeviationMatrix := ps.foldl insert empty

def allows (m : DeviationMatrix) (target deviating : ModuleIdentity) : Bool :=
  m.pairs.contains ⟨target, deviating⟩

/-- The modules that may deviate `target`, in order. -/
def deviatingModules (m : DeviationMatrix) (target : ModuleIdentity) : List ModuleIdentity :=
  (m.pairs.filter (·.target == target)).map DeviationPair.deviating

/-- The modules that may be deviated at all, in order. -/
def targets (m : DeviationMatrix) : List ModuleIdentity :=
  (m.pairs.map DeviationPair.target).eraseDups

/-- Each deviated module with those that may deviate it. -/
def rows (m : DeviationMatrix) : List (ModuleIdentity × List ModuleIdentity) :=
  m.targets.map fun t => (t, m.deviatingModules t)

/-- The number of modules that may be deviated. -/
def size (m : DeviationMatrix) : Nat := m.targets.length

def isEmpty (m : DeviationMatrix) : Bool := m.pairs.isEmpty

end DeviationMatrix

inductive SupportedDeviations where
  /-- Every deviation takes effect. -/
  | all
  /-- Only the deviations that the matrix lists take effect. -/
  | restricted (matrix : DeviationMatrix)
deriving DecidableEq

namespace SupportedDeviations

instance : Inhabited SupportedDeviations := ⟨all⟩

def allows : SupportedDeviations → ModuleIdentity → ModuleIdentity → Bool
  | all, _, _ => true
  | restricted m, target, deviating => m.allows target deviating

end SupportedDeviations

/-- What a build is told besides its sources. -/
structure BuildConfig where
  supportedDeviations : SupportedDeviations := .all
deriving DecidableEq, Inhabited

namespace BuildConfig

/-- No deviation takes effect. -/
def withoutDeviations : BuildConfig := ⟨.restricted .empty⟩

def withMatrix (m : DeviationMatrix) : BuildConfig := ⟨.restricted m⟩

/-- Whether a deviation of `target` that is declared in `deviating` takes effect. -/
def allowsDeviation (c : BuildConfig) (target deviating : ModuleIdentity) : Bool :=
  c.supportedDeviations.allows target deviating

end BuildConfig

end YangSchema
