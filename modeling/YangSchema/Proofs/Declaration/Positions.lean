import Mathlib.Data.List.Nodup
import YangSchema.Build

/-!
# Positions of statements

A position is the way down from a statement to one below it.  At a position the groupings can be seen
that are defined in the bodies around it: `Prefixes.nearest?` gives the position of the grouping that a
name means there, read off the statements alone.  A body further in hides the ones around it, and in one
body the last definition of a name counts (`definition?`), wherever it stands.

Two statements are no part of the body that they stand in.  An `augment` at the top of a source stands
outside of the module, and a `uses` has no body; the augmentations in it see what it sees.
-/

namespace YangSchema

/-- The numbers of the substatements on the way down to a statement. -/
abbrev Position := List Nat

namespace Statement

variable {s c : Statement} {k : Keyword} {i : Nat} {p p' : Position}

/-- The statement at a position. -/
def at? (s : Statement) : Position → Option Statement
  | [] => some s
  | i :: p => s.children[i]?.bind fun c => c.at? p

theorem at?_cons (h : s.children[i]? = some c) (p : Position) : s.at? (i :: p) = c.at? p := by
  rw [at?, h]
  rfl

theorem at?_append (h : s.at? p = some c) (p' : Position) : s.at? (p ++ p') = c.at? p' := by
  induction p generalizing s with
  | nil =>
    cases h
    rfl
  | cons i p ih =>
    rw [at?] at h
    obtain ⟨e, he, h⟩ := Option.bind_eq_some_iff.1 h
    rw [List.cons_append, at?_cons he, ih h]

/-- The substatements with the given keyword, each with its number. -/
def allAt (k : Keyword) (s : Statement) : List (Statement × Nat) :=
  s.children.zipIdx.filter (·.1.keyword == k)

theorem mem_allAt : (c, i) ∈ s.allAt k ↔ s.children[i]? = some c ∧ c.keyword = k := by
  rw [allAt, List.mem_filter, List.mk_mem_zipIdx_iff_getElem?, beq_iff_eq]

theorem map_fst_allAt (k : Keyword) (s : Statement) : (s.allAt k).map Prod.fst = s.all k := by
  have hfst : (s.children.zipIdx.filter (·.1.keyword == k)).map Prod.fst =
      (s.children.zipIdx.map Prod.fst).filter (·.keyword == k) := by
    rw [List.filter_map]
    rfl
  rw [allAt, hfst, List.zipIdx_map_fst, all]

/-- The numbers go up. -/
theorem pairwise_allAt (k : Keyword) (s : Statement) : (s.allAt k).Pairwise fun e e' => e.2 < e'.2 := by
  refine List.Pairwise.filter _ (List.pairwise_map.1 ?_)
  rw [List.zipIdx_map_snd]
  exact List.pairwise_lt_range'

theorem nodup_allAt (k : Keyword) (s : Statement) : ((s.allAt k).map Prod.snd).Nodup :=
  List.pairwise_map.2 ((pairwise_allAt k s).imp Nat.ne_of_lt)

/-- Whether the groupings that `s` defines can be seen from its substatement `c`. -/
def sees (s c : Statement) : Bool := s.keyword != .word .uses && c.keyword != .word .augment

end Statement

namespace Prefixes

variable {b : Prefixes} {q : QName} {s c e : Statement} {i n : Nat} {p r : Position}

/-! ## Definitions -/

/-- The number of the last grouping of that name among the substatements. -/
def definition? (b : Prefixes) (q : QName) (s : Statement) : Option Nat :=
  ((s.allAt (.word .grouping)).reverse.find? fun e => e.1.argument.map b.ownName == some q).map
    Prod.snd

/-- The number of the grouping of that name that `s` shows to its substatement `c`. -/
def shown? (b : Prefixes) (q : QName) (s c : Statement) : Option Nat :=
  if s.sees c then b.definition? q s else none

/-- The position of the grouping that a name means at a position: the definition in the innermost body
around it that has one. -/
def nearest? (b : Prefixes) (q : QName) : Statement → Position → Option Position
  | _, [] => none
  | s, i :: p => s.children[i]?.bind fun c =>
    ((b.nearest? q c p).map (i :: ·)).or ((b.shown? q s c).map ([·]))

/-- The substatement `n` defines the name. -/
def Defines (b : Prefixes) (q : QName) (s : Statement) (n : Nat) : Prop :=
  ∃ c text, s.children[n]? = some c ∧ c.keyword = .word .grouping ∧ c.argument = some text ∧
    b.ownName text = q

theorem defines_iff : b.Defines q s n ↔
    ∃ e ∈ s.allAt (.word .grouping), e.2 = n ∧ (e.1.argument.map b.ownName == some q) = true := by
  constructor
  · rintro ⟨c, text, hc, hkeyword, htext, hq⟩
    exact ⟨(c, n), Statement.mem_allAt.2 ⟨hc, hkeyword⟩, rfl, by simp [htext, hq]⟩
  · rintro ⟨⟨c, m⟩, hmem, rfl, hname⟩
    obtain ⟨hc, hkeyword⟩ := Statement.mem_allAt.1 hmem
    obtain ⟨text, htext, hq⟩ := Option.map_eq_some_iff.1 (beq_iff_eq.1 hname)
    exact ⟨c, text, hc, hkeyword, htext, hq⟩

/-- Looking from the end of a list whose numbers go up, one finds the greatest. -/
theorem le_of_find?_reverse {α : Type} {l : List (α × Nat)} {f : α × Nat → Bool} {x : α × Nat}
    (hl : l.Pairwise fun e e' => e.2 < e'.2) (hx : l.reverse.find? f = some x) :
    ∀ y ∈ l, f y = true → y.2 ≤ x.2 := by
  obtain ⟨-, pre, post, hsplit, hpre⟩ := List.find?_eq_some_iff_append.1 hx
  have hl' : l = post.reverse ++ x :: pre.reverse := by
    rw [← List.reverse_reverse l, hsplit]
    simp
  rw [hl'] at hl ⊢
  intro y hy hfy
  rcases List.mem_append.1 hy with hy | hy
  · exact Nat.le_of_lt ((List.pairwise_append.1 hl).2.2 y hy x List.mem_cons_self)
  · rcases List.mem_cons.1 hy with rfl | hy
    · exact Nat.le_refl _
    · have := hpre y (List.mem_reverse.1 hy)
      simp [hfy] at this

/-- The definition that counts is the last one. -/
theorem definition?_eq_some :
    b.definition? q s = some n ↔ b.Defines q s n ∧ ∀ m, b.Defines q s m → m ≤ n := by
  have hlast : ∀ m, b.definition? q s = some m → b.Defines q s m ∧ ∀ m', b.Defines q s m' → m' ≤ m := by
    intro m h
    obtain ⟨x, hx, rfl⟩ := Option.map_eq_some_iff.1 h
    have hname := List.find?_some hx
    have hmem := List.mem_reverse.1 (List.mem_of_find?_eq_some hx)
    refine ⟨defines_iff.2 ⟨x, hmem, rfl, hname⟩, fun m' hm' => ?_⟩
    obtain ⟨y, hy, rfl, hname'⟩ := defines_iff.1 hm'
    exact le_of_find?_reverse (Statement.pairwise_allAt _ _) hx y hy hname'
  refine ⟨hlast n, fun ⟨hn, hmax⟩ => ?_⟩
  cases h : b.definition? q s with
  | none =>
    obtain ⟨x, hx, -, hname⟩ := defines_iff.1 hn
    have := List.find?_eq_none.1 (Option.map_eq_none_iff.1 h) x (List.mem_reverse.2 hx)
    exact absurd hname this
  | some m =>
    obtain ⟨hm, hmax'⟩ := hlast m h
    rw [Nat.le_antisymm (hmax m hm) (hmax' n hn)]

/-! ## The nearest definition -/

theorem nearest?_cons (h : s.children[i]? = some c) (p : Position) :
    b.nearest? q s (i :: p) =
      ((b.nearest? q c p).map (i :: ·)).or ((b.shown? q s c).map ([·])) := by
  rw [nearest?, h]
  rfl

/-- What is found is defined in a body around the position that shows it there, and no body further in
shows such a definition. -/
theorem nearest?_eq_some : b.nearest? q s p = some r ↔ ∃ p₁ i p₂ c e n, p = p₁ ++ i :: p₂ ∧
    s.at? p₁ = some c ∧ c.children[i]? = some e ∧ b.shown? q c e = some n ∧ r = p₁ ++ [n] ∧
    b.nearest? q e p₂ = none := by
  induction p generalizing s r with
  | nil => exact iff_of_false (by simp [nearest?]) (by rintro ⟨_, _, _, _, _, _, hp, -⟩; simp at hp)
  | cons j p ih =>
    cases hc : s.children[j]? with
    | none =>
      refine iff_of_false (by simp [nearest?, hc]) ?_
      rintro ⟨p₁, i, p₂, c, e, n, hp, hat, hi, -⟩
      cases p₁ with
      | nil =>
        obtain ⟨rfl, -⟩ := List.cons.inj hp
        cases hat
        rw [hc] at hi
        cases hi
      | cons j' p₁ =>
        obtain ⟨rfl, -⟩ := List.cons.inj hp
        rw [Statement.at?, hc] at hat
        cases hat
    | some c =>
      rw [nearest?_cons hc, Option.or_eq_some_iff, Option.map_eq_some_iff, Option.map_eq_none_iff,
        Option.map_eq_some_iff]
      constructor
      · rintro (⟨r', hr', rfl⟩ | ⟨hnone, n, hn, rfl⟩)
        · obtain ⟨p₁, i, p₂, c', e, n, rfl, hat, hi, hn, rfl, hinner⟩ := ih.1 hr'
          exact ⟨j :: p₁, i, p₂, c', e, n, rfl, by rwa [Statement.at?_cons hc], hi, hn, rfl, hinner⟩
        · exact ⟨[], j, p, s, c, n, rfl, rfl, hc, hn, rfl, hnone⟩
      · rintro ⟨p₁, i, p₂, c', e, n, hp, hat, hi, hn, rfl, hinner⟩
        cases p₁ with
        | nil =>
          obtain ⟨rfl, rfl⟩ := List.cons.inj hp
          cases hat
          rw [hc] at hi
          cases hi
          exact .inr ⟨hinner, n, hn, rfl⟩
        | cons j' p₁ =>
          obtain ⟨rfl, rfl⟩ := List.cons.inj hp
          rw [Statement.at?_cons hc] at hat
          exact .inl ⟨p₁ ++ [n], ih.2 ⟨p₁, i, p₂, c', e, n, rfl, hat, hi, hn, rfl, hinner⟩, rfl⟩

/-- What is found is a grouping of that name. -/
theorem defines_of_nearest? (h : b.nearest? q s p = some r) : ∃ c text, s.at? r = some c ∧
    c.argument = some text ∧ b.ownName text = q := by
  obtain ⟨p₁, i, p₂, c, e, n, -, hat, -, hn, rfl, -⟩ := nearest?_eq_some.1 h
  unfold shown? at hn
  split at hn
  · obtain ⟨g, text, hg, -, htext, hq⟩ := (definition?_eq_some.1 hn).1
    exact ⟨g, text, by rw [Statement.at?_append hat, Statement.at?_cons hg, Statement.at?], htext, hq⟩
  · cases hn

/-! ## What is declared with a body -/

/-- The statement has a body, or, as a `uses`, statements with bodies in it. -/
def Opens (b : Prefixes) (c : Statement) : Prop :=
  c.keyword = .word .grouping ∨ c.keyword = .word .uses ∨ c.keyword = .word .augment ∨
    (c.nodeKind? b).isSome

/-- The statement `e` at the position stands in the body of `s`, or in a body in there. -/
inductive Inside (b : Prefixes) : Statement → Position → Statement → Prop
  | direct {s c : Statement} {i : Nat} (h : s.children[i]? = some c)
    (hs : s.keyword = .word .uses → c.keyword = .word .augment) : Inside b s [i] c
  | deeper {s c e : Statement} {i : Nat} {p : Position} (h : s.children[i]? = some c)
    (hs : s.keyword = .word .uses → c.keyword = .word .augment) (hc : b.Opens c)
    (hin : Inside b c p e) : Inside b s (i :: p) e

theorem Inside.at? (h : b.Inside s p e) : s.at? p = some e := by
  induction h with
  | direct h => rw [Statement.at?_cons h, Statement.at?]
  | deeper h _ _ _ ih => rwa [Statement.at?_cons h]

theorem Inside.ne_nil (h : b.Inside s p e) : p ≠ [] := by
  cases h <;> exact List.cons_ne_nil _ _

end Prefixes

end YangSchema
