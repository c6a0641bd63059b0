import YangSchema.SchemaPath

/-!
# Paths are ordered as a tree

The order of paths is lexicographic in the steps, and the order of the steps is lexicographic in
namespace, revision and local name; where two paths have the same steps, the relative one is first
(`SchemaPath.Before`).  A path comes before everything below it, and nothing from elsewhere comes in
between: in a sorted list of paths, those at and below one place stand together, those at the place
first (`SchemaPath.exists_subtree`).
-/

namespace YangSchema

/-! ## Lexicographic comparison -/

section Lexicographic

variable {α : Type} [Ord α] {l m n : List α}

theorem list_compare_eq_lt [Std.LawfulEqOrd α] :
    compare l m = .lt ↔ List.Lex (fun a b => compare a b = .lt) l m := by
  induction l generalizing m with
  | nil =>
    cases m with
    | nil => exact iff_of_false (by simp) (by rintro ⟨⟩)
    | cons b m => exact iff_of_true List.compare_nil_cons .nil
  | cons a l ih =>
    cases m with
    | nil => exact iff_of_false (by simp [List.compare_cons_nil]) (by rintro ⟨⟩)
    | cons b m =>
      rw [List.compare_cons_cons, Ordering.then_eq_lt, ih, Std.LawfulEqOrd.compare_eq_iff_eq,
        List.cons_lex_cons_iff]

/-- What continues a list comes after it. -/
theorem list_compare_of_isPrefix [Std.ReflOrd α] (h : l <+: m) (hne : l ≠ m) :
    compare l m = .lt := by
  induction l generalizing m with
  | nil =>
    obtain ⟨b, m, rfl⟩ := List.exists_cons_of_ne_nil hne.symm
    exact List.compare_nil_cons
  | cons a l ih =>
    obtain ⟨m, rfl, hm⟩ := List.cons_prefix_iff.1 h
    have hself : compare a a = .eq := Std.ReflOrd.compare_self
    rw [List.compare_cons_cons, hself]
    exact ih hm fun h => hne (h ▸ rfl)

/-- What stands between two continuations of a list is one itself. -/
theorem isPrefix_of_between [Std.TransOrd α] [Std.LawfulEqOrd α] {p : List α} (hl : p <+: l)
    (hn : p <+: n) (hlm : (compare l m).isLE) (hmn : (compare m n).isLE) : p <+: m := by
  induction p generalizing l m n with
  | nil => exact List.nil_prefix
  | cons a p ih =>
    obtain ⟨l, rfl, hpl⟩ := List.cons_prefix_iff.1 hl
    obtain ⟨n, rfl, hpn⟩ := List.cons_prefix_iff.1 hn
    cases m with
    | nil => simp [List.compare_cons_nil] at hlm
    | cons b m =>
      rw [List.compare_cons_cons, Ordering.isLE_then_iff_and] at hlm hmn
      obtain rfl : a = b :=
        Std.LawfulEqOrd.eq_of_compare (Std.OrientedCmp.isLE_antisymm hlm.1 hmn.1)
      have hself : compare a a = .eq := Std.ReflCmp.compare_self
      simp only [hself, reduceCtorEq, false_or] at hlm hmn
      exact List.cons_prefix_cons.2 ⟨rfl, ih hpl hpn hlm.2 hmn.2⟩

end Lexicographic

/-! ## Blocks of a sorted list -/

section Blocks

variable {α : Type} {R : α → α → Prop} {P : α → Bool} {l : List α}

/-- What includes all that is in between stands together in a sorted list. -/
theorem exists_append_filter_append (h : l.Pairwise R)
    (hconvex : ∀ a b c, R a b → R b c → P a = true → P c = true → P b = true) :
    ∃ before after, l = before ++ l.filter P ++ after ∧ ∀ x ∈ before ++ after, P x = false := by
  induction l with
  | nil => exact ⟨[], [], rfl, by simp⟩
  | cons a l ih =>
    obtain ⟨ha, hl⟩ := List.pairwise_cons.1 h
    obtain ⟨before, after, heq, hout⟩ := ih hl
    cases hPa : P a with
    | false =>
      rw [List.filter_cons_of_neg (by simp [hPa])]
      exact ⟨a :: before, after, by simpa using heq, List.forall_mem_cons.2 ⟨hPa, hout⟩⟩
    | true =>
      rw [List.filter_cons_of_pos hPa]
      cases before with
      | nil => exact ⟨[], after, by simpa using heq, hout⟩
      | cons b before =>
        -- `b` is outside, so nothing after it is inside
        have hb : P b = false := hout b (by simp)
        have hnone : l.filter P = [] := by
          refine List.filter_eq_nil_iff.2 fun c hc hPc => ?_
          rw [heq] at hl ha hc
          rcases List.mem_cons.1 hc with rfl | hc
          · simp [hb] at hPc
          · have hbc : R b c := (List.pairwise_cons.1 hl).1 c hc
            simp [hconvex a b c (ha b (by simp)) hbc hPa hPc] at hb
        refine ⟨[], l, by simp [hnone], fun x hx => ?_⟩
        simpa using List.filter_eq_nil_iff.1 hnone x hx

/-- What includes all that comes before stands in front in a sorted list. -/
theorem eq_filter_append_filter (h : l.Pairwise R)
    (hdown : ∀ a ∈ l, ∀ b ∈ l, R a b → P b = true → P a = true) :
    l = l.filter P ++ l.filter fun x => !P x := by
  induction l with
  | nil => rfl
  | cons a l ih =>
    obtain ⟨ha, hl⟩ := List.pairwise_cons.1 h
    cases hPa : P a with
    | true =>
      have htail := ih hl fun b hb c hc =>
        hdown b (List.mem_cons_of_mem a hb) c (List.mem_cons_of_mem a hc)
      simpa [hPa] using htail
    | false =>
      have hout : ∀ x ∈ l, P x = false := by
        intro x hx
        refine Bool.eq_false_iff.2 fun hPx => ?_
        simp [hdown a List.mem_cons_self x (List.mem_cons_of_mem a hx) (ha x hx) hPx] at hPa
      have hfilter : l.filter P = [] := List.filter_eq_nil_iff.2 fun x hx => by simp [hout x hx]
      have hkeep : (l.filter fun x => !P x) = l :=
        List.filter_eq_self.2 fun x hx => by simp [hout x hx]
      simp [hPa, hfilter, hkeep]

end Blocks

/-! ## The order of names -/

namespace QName

/-- The namespace decides first, then the revision of the module, the undated one first, and then the
local name. -/
def Before (a b : QName) : Prop :=
  a.owner.namespaceUri < b.owner.namespaceUri ∨
    (a.owner.namespaceUri = b.owner.namespaceUri ∧
      (Revision.Before a.owner.revision b.owner.revision ∨
        (a.owner.revision = b.owner.revision ∧ a.localName < b.localName)))

theorem compare_eq_lt {a b : QName} : compare a b = .lt ↔ a.Before b := by
  have htext : ∀ {s t : String}, compare s t = .lt ↔ s < t := compareOfLessAndEq_eq_lt
  have howner : compare a.owner b.owner = .lt ↔
      compare a.owner.namespaceUri b.owner.namespaceUri = .lt ∨
        (compare a.owner.namespaceUri b.owner.namespaceUri = .eq ∧
          compare a.owner.revision b.owner.revision = .lt) := Ordering.then_eq_lt
  have hname : compare a b = .lt ↔ compare a.owner b.owner = .lt ∨
      (compare a.owner b.owner = .eq ∧ compare a.localName b.localName = .lt) := Ordering.then_eq_lt
  have hsame : a.owner = b.owner ↔ a.owner.namespaceUri = b.owner.namespaceUri ∧
      a.owner.revision = b.owner.revision := by
    cases a.owner; cases b.owner; simp
  rw [hname, howner, htext, htext, Revision.compare_eq_lt, Std.LawfulEqOrd.compare_eq_iff_eq,
    Std.LawfulEqOrd.compare_eq_iff_eq, hsame, Before, or_assoc, and_assoc, and_or_left]

end QName

/-! ## The order of paths -/

namespace SchemaPath

variable {p q r s : SchemaPath} {l : List SchemaPath}

/-- The steps decide, one after another; of two paths with the same steps the relative one is first. -/
def Before (p q : SchemaPath) : Prop :=
  List.Lex QName.Before p.steps q.steps ∨
    (p.steps = q.steps ∧ p.absolute = false ∧ q.absolute = true)

theorem compare_eq_lt : compare p q = .lt ↔ p.Before q := by
  have hflag : compare p.absolute q.absolute = .lt ↔ p.absolute = false ∧ q.absolute = true := by
    cases p.absolute <;> cases q.absolute <;> decide
  have hpath : compare p q = .lt ↔ compare p.steps q.steps = .lt ∨
      (compare p.steps q.steps = .eq ∧ compare p.absolute q.absolute = .lt) := Ordering.then_eq_lt
  rw [hpath, hflag, list_compare_eq_lt, Std.LawfulEqOrd.compare_eq_iff_eq, Before]
  simp only [QName.compare_eq_lt]

theorem isLE_steps (h : (compare p q).isLE) : (compare p.steps q.steps).isLE :=
  (Ordering.isLE_then_iff_and.1 h).1

/-- A path comes before all that is below it, absolute or not. -/
theorem compare_of_isPrefix (h : p.steps <+: q.steps) (hne : p.steps ≠ q.steps) :
    compare p q = .lt :=
  Ordering.then_eq_lt.2 (.inl (list_compare_of_isPrefix h hne))

theorem isAncestorOf_of_between (hq : p.isAncestorOf q = true) (hs : p.isAncestorOf s = true)
    (hqr : (compare q r).isLE) (hrs : (compare r s).isLE) : p.isAncestorOf r = true :=
  isAncestorOf_iff.2 (isPrefix_of_between (isAncestorOf_iff.1 hq) (isAncestorOf_iff.1 hs)
    (isLE_steps hqr) (isLE_steps hrs))

/-- In a sorted list what is at and below a place stands together, in front what is at the place. -/
theorem exists_subtree (p : SchemaPath) (h : l.Pairwise fun a b => (compare a b).isLE) :
    ∃ before roots below after, l = before ++ (roots ++ below) ++ after ∧
      (∀ r ∈ roots, r.steps = p.steps) ∧
      (∀ r ∈ below, p.isAncestorOf r = true ∧ r.steps ≠ p.steps) ∧
      ∀ r ∈ before ++ after, p.isAncestorOf r = false := by
  obtain ⟨before, after, hl, hout⟩ := exists_append_filter_append (P := p.isAncestorOf) h
    fun a b c hab hbc ha hc => isAncestorOf_of_between ha hc hab hbc
  -- a path that is not after one with the steps of `p` is not below `p`
  have hroots := eq_filter_append_filter (P := fun r => r.steps == p.steps)
    (h.filter p.isAncestorOf) fun a ha b _ hab hb => by
      obtain ⟨-, ha⟩ := List.mem_filter.1 ha
      have hap : (compare a.steps p.steps).isLE := eq_of_beq hb ▸ isLE_steps hab
      refine Decidable.byContradiction fun hne => ?_
      have hpa : compare p.steps a.steps = .lt :=
        list_compare_of_isPrefix (isAncestorOf_iff.1 ha) fun h => hne (by simp [h])
      simp [Std.OrientedCmp.gt_of_lt hpa] at hap
  refine ⟨before, _, _, after, hroots ▸ hl, fun r hr => ?_, fun r hr => ?_, hout⟩
  · exact eq_of_beq (List.mem_filter.1 hr).2
  · obtain ⟨hr, hne⟩ := List.mem_filter.1 hr
    exact ⟨(List.mem_filter.1 hr).2, by simpa using hne⟩

theorem isAncestorOf_iff_exists_join : p.isAncestorOf q = true ↔ ∃ r, (p.join r).steps = q.steps := by
  rw [isAncestorOf_iff]
  constructor
  · rintro ⟨steps, hsteps⟩
    exact ⟨⟨false, steps⟩, hsteps⟩
  · rintro ⟨r, hr⟩
    exact ⟨r.steps, hr⟩

theorem parent?_eq_some : r.parent? = some p ↔ ∃ q, r = p.child q := by
  constructor
  · intro h
    unfold parent? at h
    split at h
    · cases h
    · next hne =>
      cases h
      have hne : r.steps ≠ [] := by simpa using hne
      exact ⟨r.steps.getLast hne, by simp [child, List.dropLast_concat_getLast]⟩
  · rintro ⟨q, rfl⟩
    exact parent?_child p q

/-- Paths are linearly ordered, by steps that are ordered by namespace, revision and local name.  A path
comes before all that is below it, and what is at and below it stands together; it is above the paths
that can be joined to it, and the parent of its children alone. -/
theorem compare_keeps_subtrees :
    (∀ p q : SchemaPath, compare p q = .lt ↔ p.Before q) ∧
    (∀ p q : SchemaPath, compare p q = .eq ↔ p = q) ∧
    (∀ p q : SchemaPath, compare q p = (compare p q).swap) ∧
    (∀ p q r : SchemaPath, (compare p q).isLE → (compare q r).isLE → (compare p r).isLE) ∧
    (∀ p q : SchemaPath, p.steps <+: q.steps → p.steps ≠ q.steps → compare p q = .lt) ∧
    (∀ p q r s : SchemaPath, p.isAncestorOf q = true → p.isAncestorOf s = true →
      (compare q r).isLE → (compare r s).isLE → p.isAncestorOf r = true) ∧
    (∀ (p : SchemaPath) (l : List SchemaPath), l.Pairwise (fun a b => (compare a b).isLE) →
      ∃ before roots below after, l = before ++ (roots ++ below) ++ after ∧
        (∀ r ∈ roots, r.steps = p.steps) ∧
        (∀ r ∈ below, p.isAncestorOf r = true ∧ r.steps ≠ p.steps) ∧
        ∀ r ∈ before ++ after, p.isAncestorOf r = false) ∧
    (∀ p q : SchemaPath, p.isAncestorOf q = true ↔ ∃ r, (p.join r).steps = q.steps) ∧
    ∀ p r : SchemaPath, r.parent? = some p ↔ ∃ q, r = p.child q := by
  refine ⟨fun _ _ => compare_eq_lt, fun _ _ => Std.LawfulEqOrd.compare_eq_iff_eq,
    fun _ _ => Std.OrientedOrd.eq_swap, fun _ _ _ => Std.TransOrd.isLE_trans,
    fun _ _ => compare_of_isPrefix, fun _ _ _ _ => isAncestorOf_of_between,
    fun p _ => exists_subtree p, fun _ _ => isAncestorOf_iff_exists_join, fun _ _ => parent?_eq_some⟩

/-- Paths of one namespace along the given local names. -/
def along (absolute : Bool) (names : List String) : SchemaPath :=
  ⟨absolute, names.map (QName.mk ⟨"urn:t", none⟩)⟩

theorem compare_keeps_subtrees_along :
    (compare (along true ["a"]) (along true ["c"])).isLE = true ∧
    compare (along true ["b"]) (along false ["b", "c"]) = .lt ∧
    (along false ["b"]).isAncestorOf (along true ["b", "c"]) = true ∧
    ∃ before roots below after, [along true ["a"], along false ["b"], along true ["b"],
        along false ["b", "c"], along true ["c"]] = before ++ (roots ++ below) ++ after ∧
      (∀ r ∈ roots, r.steps = (along true ["b"]).steps) ∧
      (∀ r ∈ below, (along true ["b"]).isAncestorOf r = true ∧ r.steps ≠ (along true ["b"]).steps) ∧
      ∀ r ∈ before ++ after, (along true ["b"]).isAncestorOf r = false := by
  obtain ⟨-, -, -, htrans, hproper, hbetween, hblocks, -⟩ := compare_keeps_subtrees
  refine ⟨?_, ?_, ?_, ?_⟩
  · exact htrans _ (along true ["b"]) _ (by decide +kernel) (by decide +kernel)
  · exact hproper _ _ (by decide +kernel) (by decide +kernel)
  · exact hbetween _ (along true ["b"]) _ (along true ["b", "d"]) (by decide +kernel)
      (by decide +kernel) (by decide +kernel) (by decide +kernel)
  · exact hblocks _ _ (by decide +kernel)

end SchemaPath

end YangSchema
