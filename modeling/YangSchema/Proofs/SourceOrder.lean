import Mathlib.Data.List.Perm.Basic
import YangSchema.Build
import YangSchema.Proofs.Draft.Outcome
import YangSchema.Proofs.Draft.Showing

/-!
# The order of the sources

A registry keeps its sources in key order and refuses a key that it has, so what it holds after a
series of registrations says nothing of their order: it is the only registry that lists the sources
registered (`Registry.Lists`).  Whether all sources can be registered does not depend on their order
either; which of several faults is met first does.  Everything after the registration reads the
registry alone, so the order of the sources is seen in the faults of the first phase and nowhere else
(`buildSchema_perm`).
-/

namespace YangSchema

/-- An entry with a new key takes the place of none. -/
theorem perm_insertBy {κ α : Type} [Ord κ] {key : α → κ} {a : α} {l : List α}
    (h : ∀ b ∈ l, compare (key a) (key b) ≠ .eq) : (insertBy key a l).Perm (a :: l) := by
  induction l with
  | nil => exact .refl _
  | cons b l ih =>
    rw [insertBy]
    split
    · exact .refl _
    · next heq => exact absurd heq (h b List.mem_cons_self)
    · exact ((ih fun x hx => h x (List.mem_cons_of_mem b hx)).cons b).trans (.swap a b l)

/-- The last entry is the one with the greatest key. -/
theorem Ordered.getLast?_eq_some {κ α : Type} [Ord κ] [Std.TransOrd κ] {key : α → κ} {l : List α}
    (h : Ordered key l) {a : α} : l.getLast? = some a ↔
      a ∈ l ∧ ∀ b ∈ l, b ≠ a → compare (key b) (key a) = .lt := by
  rcases List.eq_nil_or_concat' l with rfl | ⟨l, x, rfl⟩
  · simp
  · have hlt : ∀ b ∈ l, compare (key b) (key x) = .lt := fun b hb =>
      (List.pairwise_append.1 (show List.Pairwise _ _ from h)).2.2 b hb x (by simp)
    rw [List.getLast?_append_cons, List.getLast?_singleton, Option.some_inj]
    constructor
    · rintro rfl
      refine ⟨by simp, fun b hb hne => hlt b ?_⟩
      exact (List.mem_append.1 hb).resolve_right (by simpa using hne)
    · rintro ⟨ha, hmax⟩
      rcases List.mem_append.1 ha with ha | ha
      · by_contra hne
        have hfirst := hmax x (by simp) hne
        have hlast := hlt a ha
        rw [Std.OrientedCmp.gt_of_lt hfirst] at hlast
        cases hlast
      · exact (List.mem_singleton.1 ha).symm

namespace Registry

variable {r r' : Registry} {s : Source} {l l' : List Source}

theorem get?_eq_none {k : SourceKey} : r.get? k = none ↔ ∀ s ∈ r.sources, s.key ≠ k := by
  simp [get?, List.find?_eq_none]

theorem nodup_keys_append : ((l ++ [s]).map Source.key).Nodup ↔
    (l.map Source.key).Nodup ∧ ∀ t ∈ l, t.key ≠ s.key := by
  rw [List.map_append, List.nodup_append]
  simp

/-- The registry holds the sources of the list, which have different keys, and no others. -/
structure Lists (r : Registry) (l : List Source) : Prop where
  keys : (l.map Source.key).Nodup
  perm : r.sources.Perm l

theorem lists_empty : empty.Lists [] := ⟨.nil, .refl _⟩

/-- Two registries of the same sources are the same: both hold them in key order. -/
theorem Lists.eq (h : r.Lists l) (h' : r'.Lists l') (hl : l.Perm l') : r = r' := by
  have hsources : r.sources = r'.sources :=
    r.ordered.eq_of_perm r'.ordered ((h.perm.trans hl).trans h'.perm.symm)
  cases r
  cases r'
  cases hsources
  rfl

theorem Lists.exists_register (h : r.Lists l) (hnew : ∀ t ∈ l, t.key ≠ s.key) :
    ∃ r', r.register s = .ok r' ∧ r'.Lists (l ++ [s]) := by
  have hnew' : ∀ t ∈ r.sources, t.key ≠ s.key := fun t ht => hnew t (h.perm.mem_iff.1 ht)
  have hnone : r.get? s.key = none := get?_eq_none.2 hnew'
  refine ⟨⟨insertBy Source.key s r.sources, ordered_insertBy r.ordered⟩, ?_,
    nodup_keys_append.2 ⟨h.keys, hnew⟩, ?_⟩
  · rw [register, hnone]
  · have hput : (insertBy Source.key s r.sources).Perm (s :: r.sources) :=
      perm_insertBy fun t ht heq => hnew' t ht (Std.LawfulEqOrd.eq_of_compare heq).symm
    exact (hput.trans (h.perm.cons s)).trans (List.perm_append_singleton s l).symm

/-- A source is registered exactly if its key is new, and then the registry lists it as well. -/
theorem Lists.register_eq_ok (h : r.Lists l) : r.register s = .ok r' ↔ r'.Lists (l ++ [s]) := by
  constructor
  · intro hr
    have hnone : r.get? s.key = none := by
      cases hget : r.get? s.key with
      | none => rfl
      | some t => rw [register, hget] at hr; cases hr
    have hnew : ∀ t ∈ l, t.key ≠ s.key := fun t ht =>
      get?_eq_none.1 hnone t (h.perm.mem_iff.2 ht)
    obtain ⟨r₁, hr₁, hl⟩ := h.exists_register hnew
    rw [hr] at hr₁
    cases hr₁
    exact hl
  · intro h'
    obtain ⟨r₁, hr₁, hl⟩ := h.exists_register (nodup_keys_append.1 h'.keys).2
    rw [hr₁, hl.eq h' (.refl _)]

end Registry

/-! ## Collecting sources -/

variable {sources sources' : List ParsedSource} {r : Registry}

theorem foldlM_register_eq_ok {r₀ : Registry} {l₀ : List Source} (h₀ : r₀.Lists l₀) :
    sources.foldlM (fun r p => do r.register (← p.analyze)) r₀ = .ok r ↔
      ∃ l, List.Forall₂ (fun p s => p.analyze = .ok s) sources l ∧ r.Lists (l₀ ++ l) := by
  induction sources generalizing r₀ l₀ with
  | nil =>
    have heq : r₀ = r ↔ r.Lists l₀ :=
      ⟨fun h => h ▸ h₀, fun h => h₀.eq h (.refl _)⟩
    simpa [pure, Except.pure] using heq
  | cons p sources ih =>
    rw [List.foldlM_cons]
    cases hp : p.analyze with
    | error f =>
      refine ⟨fun h => by simp [bind, Except.bind] at h, ?_⟩
      rintro ⟨_, hl, -⟩
      obtain ⟨s, _, hs, -⟩ := List.forall₂_cons_left_iff.1 hl
      cases hp.symm.trans hs
    | ok s =>
      constructor
      · intro h
        cases hr : r₀.register s with
        | error f => simp [bind, Except.bind, hr] at h
        | ok r₁ =>
          simp only [bind, Except.bind, hr] at h
          obtain ⟨l, hl, hlists⟩ := (ih (h₀.register_eq_ok.1 hr)).1 h
          exact ⟨s :: l, .cons hp hl, by simpa using hlists⟩
      · rintro ⟨_, hl, hlists⟩
        obtain ⟨s', l, hs', htail, rfl⟩ := List.forall₂_cons_left_iff.1 hl
        cases hp.symm.trans hs'
        have hkeys : ((l₀ ++ [s]).map Source.key).Nodup :=
          hlists.keys.sublist (List.Sublist.map _ (by simp))
        obtain ⟨r₁, hr₁, hl₁⟩ := h₀.exists_register (Registry.nodup_keys_append.1 hkeys).2
        simp only [bind, Except.bind, hr₁]
        exact (ih hl₁).2 ⟨l, htail, by simpa using hlists⟩

/-- The registry that comes of a list of sources lists the sources read from it. -/
theorem collectSources_eq_ok : collectSources sources = .ok r ↔
    ∃ l, List.Forall₂ (fun p s => p.analyze = .ok s) sources l ∧ r.Lists l :=
  foldlM_register_eq_ok Registry.lists_empty

/-- What the registry holds was read from the root of a source that was given. -/
theorem exists_of_collectSources (hr : collectSources sources = .ok r) {s : Source} (hs : s ∈ r.sources) :
    ∃ p ∈ sources, ∃ root, p.root = .ok root ∧ Source.analyze p.label root = .ok s := by
  obtain ⟨l, hl, hlists⟩ := collectSources_eq_ok.1 hr
  obtain ⟨p, hp, hread⟩ := exists_of_forall₂_right hl (hlists.perm.mem_iff.1 hs)
  unfold ParsedSource.analyze at hread
  split at hread
  · next root hroot => exact ⟨p, hp, root, hroot, hread⟩
  · cases hread

theorem collectSources_perm (h : sources.Perm sources') (hr : collectSources sources = .ok r) :
    collectSources sources' = .ok r := by
  obtain ⟨l, hl, hlists⟩ := collectSources_eq_ok.1 hr
  obtain ⟨l', hl', hperm⟩ := List.perm_comp_forall₂ h.symm hl
  have hkeys : (l'.map Source.key).Nodup := (hperm.map _).nodup_iff.2 hlists.keys
  exact collectSources_eq_ok.2 ⟨l', hl', hkeys, hlists.perm.trans hperm.symm⟩

/-- The order of the sources does not show in what is built, and not in a fault either once all
sources are registered. -/
theorem buildSchema_perm {sources sources' : List ParsedSource} (h : sources.Perm sources')
    (config : BuildConfig) :
    buildSchema sources config = buildSchema sources' config ∨
      ∃ f f', buildSchema sources config = .error ⟨.sourcePreLinkage, f⟩ ∧
        buildSchema sources' config = .error ⟨.sourcePreLinkage, f'⟩ := by
  cases hr : collectSources sources with
  | ok r =>
    left
    rw [buildSchema, buildSchema, hr, collectSources_perm h hr]
  | error f =>
    cases hr' : collectSources sources' with
    | ok r' =>
      rw [collectSources_perm h.symm hr'] at hr
      cases hr
    | error f' =>
      right
      refine ⟨f, f', ?_, ?_⟩
      · rw [buildSchema, hr]
        rfl
      · rw [buildSchema, hr']
        rfl

/-! ## An example -/

/-- A module that uses a grouping of another one. -/
def importingSource : ParsedSource where
  label := "a.yang"
  root := .ok {
    keyword := .word .moduleWord
    argument := some "a"
    children := [
      { keyword := .word .namespaceWord, argument := some "urn:a" },
      { keyword := .word .prefixWord, argument := some "a" },
      { keyword := .word .importWord, argument := some "b"
        children := [{ keyword := .word .prefixWord, argument := some "b" }] },
      { keyword := .word .uses, argument := some "b:g" }] }

/-- The module that is imported. -/
def importedSource : ParsedSource where
  label := "b.yang"
  root := .ok {
    keyword := .word .moduleWord
    argument := some "b"
    children := [
      { keyword := .word .namespaceWord, argument := some "urn:b" },
      { keyword := .word .prefixWord, argument := some "b" },
      { keyword := .word .grouping, argument := some "g"
        children := [{ keyword := .word .leaf, argument := some "x" }] }] }

/-- The imported module may come second. -/
theorem buildSchema_perm_importingSource : ∃ schema : Schema, schema.modules.length = 2 ∧
    buildSchema [importedSource, importingSource] {} = .ok schema ∧
    buildSchema [importingSource, importedSource] {} = .ok schema := by
  have hcheck : ((buildSchema [importedSource, importingSource] {}).toOption.any fun schema =>
      decide (schema.modules.length = 2)) = true := by decide +kernel
  simp only [Option.any_eq_true, toOption_eq_some, decide_eq_true_eq] at hcheck
  obtain ⟨schema, hschema, hlength⟩ := hcheck
  refine ⟨schema, hlength, hschema, ?_⟩
  rcases buildSchema_perm (List.Perm.swap importingSource importedSource []) {} with h | ⟨f, -, h, -⟩
  · rw [← h, hschema]
  · rw [hschema] at h
    cases h

end YangSchema
