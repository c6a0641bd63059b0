import YangSchema.Linkage
import YangSchema.Proofs.Declaration.Targets

/-!
# Linking stays in the registry

Imports and includes lead to registered sources only.  So the linkage order holds no other sources
(`mem_of_link`), and what is gathered for a module is registered as well (`mem_of_includedBy`).
-/

namespace YangSchema

/-- A loop keeps what each of its rounds keeps. -/
theorem foldlM_keeps {α β ε : Type} {f : β → α → Except ε β} {p : β → Prop} {l : List α}
    (hf : ∀ b, p b → ∀ a ∈ l, ∀ b', f b a = .ok b' → p b') {b b' : β} (hb : p b)
    (h : l.foldlM f b = .ok b') : p b' := by
  induction l generalizing b with
  | nil =>
    cases h
    exact hb
  | cons a l ih =>
    rw [List.foldlM_cons] at h
    obtain ⟨c, hc, h⟩ := exists_of_bind_eq_ok h
    exact ih (fun b hb a ha => hf b hb a (List.mem_cons_of_mem _ ha))
      (hf b hb a List.mem_cons_self c hc) h

namespace Source

variable {label : String} {root : Statement} {s : Source}

/-- A source is read from the statement of a module or a submodule, which it holds. -/
theorem exists_of_analyze (h : analyze label root = .ok s) : s.root = root ∧
    (root.keyword = .word .moduleWord ∧ s.kind = .module ∨
      root.keyword = .word .submodule ∧ s.kind = .submodule) ∧
    ∃ name, readAllegiance label root s.kind name = .ok (s.namespaceUri, s.parent, s.ownPrefix) := by
  unfold analyze at h
  extract_lets rest at h
  have hrest : ∀ {kind}, rest kind = .ok s → s.root = root ∧ s.kind = kind ∧
      ∃ name, readAllegiance label root s.kind name = .ok (s.namespaceUri, s.parent, s.ownPrefix) := by
    intro kind h
    obtain ⟨name, -, h⟩ := exists_of_bind_eq_ok h
    obtain ⟨-, -, h⟩ := exists_of_bind_eq_ok h
    obtain ⟨⟨uri, parent, ownPrefix⟩, hallegiance, h⟩ := exists_of_bind_eq_ok h
    obtain ⟨revisions, -, h⟩ := exists_of_bind_eq_ok h
    obtain ⟨imports, -, h⟩ := exists_of_bind_eq_ok h
    obtain ⟨includes, -, h⟩ := exists_of_bind_eq_ok h
    cases h
    exact ⟨rfl, rfl, name, hallegiance⟩
  split at h
  · next hk =>
    obtain ⟨hroot, hkind, hallegiance⟩ := hrest h
    exact ⟨hroot, .inl ⟨hk, hkind⟩, hallegiance⟩
  · next hk =>
    obtain ⟨hroot, hkind, hallegiance⟩ := hrest h
    exact ⟨hroot, .inr ⟨hk, hkind⟩, hallegiance⟩
  · cases h

/-- The statement is not that of a choice. -/
theorem of_analyze (h : analyze label root = .ok s) :
    s.root = root ∧ root.keyword ≠ .word .choice := by
  obtain ⟨hroot, hk, -⟩ := exists_of_analyze h
  refine ⟨hroot, ?_⟩
  rcases hk with ⟨hk, -⟩ | ⟨hk, -⟩ <;> rw [hk] <;> simp

end Source

namespace Registry

variable {r : Registry} {s t : Source} {i : Import} {j : Include}

theorem mem_of_resolve {name : String} {revision : Option Revision}
    (h : r.resolve name revision = .ok s) : s ∈ r.sources := by
  unfold resolve at h
  extract_lets found at h
  cases hf : found with
  | none =>
    rw [hf] at h
    cases h
  | some t =>
    rw [hf] at h
    cases h
    cases revision with
    | none => exact List.mem_of_mem_filter (List.mem_of_getLast? hf)
    | some v => exact List.mem_of_find?_eq_some hf

theorem mem_of_resolveImport (h : r.resolveImport i = .ok s) : s ∈ r.sources := by
  unfold resolveImport at h
  obtain ⟨t, ht, h⟩ := exists_of_bind_eq_ok h
  split at h
  · cases h
  · cases h
    exact mem_of_resolve ht

theorem mem_of_resolveInclude (h : r.resolveInclude s j = .ok t) : t ∈ r.sources := by
  unfold resolveInclude at h
  obtain ⟨t', ht, h⟩ := exists_of_bind_eq_ok h
  split at h
  · split at h
    · cases h
      exact mem_of_resolve ht
    · cases h
  · cases h

theorem mem_of_dependencies {l : List Source} (h : r.dependencies s = .ok l) (ht : t ∈ l) :
    t ∈ r.sources := by
  unfold dependencies at h
  obtain ⟨imports, himports, h⟩ := exists_of_bind_eq_ok h
  obtain ⟨includes, hincludes, h⟩ := exists_of_bind_eq_ok h
  cases h
  rcases List.mem_append.1 (mem_of_mem_orderedBy ht) with ht | ht
  · obtain ⟨i, -, hi⟩ := exists_of_forall₂_right (forall₂_of_mapM_ok himports) ht
    exact mem_of_resolveImport hi
  · obtain ⟨j, -, hj⟩ := exists_of_forall₂_right (forall₂_of_mapM_ok hincludes) ht
    exact mem_of_resolveInclude hj

/-! ## The linkage order -/

theorem visit_subset (fuel : Nat) : ∀ (trail done : List Source) (s : Source) (l : List Source),
    done ⊆ r.sources → s ∈ r.sources → r.visit fuel trail done s = .ok l → l ⊆ r.sources := by
  induction fuel with
  | zero =>
    intro trail done s l hdone hs h
    unfold visit at h
    split at h
    · cases h
      exact hdone
    · split at h
      · cases h
      · cases h
  | succ fuel ih =>
    intro trail done s l hdone hs h
    unfold visit at h
    split at h
    · cases h
      exact hdone
    split at h
    · cases h
    obtain ⟨targets, htargets, h⟩ := exists_of_bind_eq_ok h
    obtain ⟨l', hl', h⟩ := exists_of_bind_eq_ok h
    cases h
    have hsub : l' ⊆ r.sources := foldlM_keeps (p := (· ⊆ r.sources))
      (fun done hdone t ht l h => ih _ done t l hdone (mem_of_dependencies htargets ht) h) hdone hl'
    exact List.append_subset.2 ⟨hsub, by simpa using hs⟩

/-- All that is linked is registered. -/
theorem mem_of_link {order : List Source} (h : r.link = .ok order) (hs : s ∈ order) :
    s ∈ r.sources := by
  unfold link at h
  obtain ⟨-, -, h⟩ := exists_of_bind_eq_ok h
  unfold linkageOrder at h
  refine foldlM_keeps (p := (· ⊆ r.sources)) (fun done hdone t ht l h => ?_) (List.nil_subset _) h hs
  exact visit_subset _ _ done t l hdone ht h

/-! ## Submodules -/

theorem gatherIncludes_subset (fuel : Nat) : ∀ (pending found l : List Source), found ⊆ r.sources →
    r.gatherIncludes fuel pending found = .ok l → l ⊆ r.sources := by
  induction fuel with
  | zero =>
    intro pending found l hfound h
    cases h
    exact hfound
  | succ fuel ih =>
    intro pending found l hfound h
    cases pending with
    | nil =>
      cases h
      exact hfound
    | cons including pending =>
      rw [gatherIncludes] at h
      obtain ⟨x, hx, h⟩ := exists_of_bind_eq_ok h
      refine ih x.1 x.2 l ?_ h
      refine foldlM_keeps (p := fun x : List Source × List Source => x.2 ⊆ r.sources) ?_ hfound hx
      rintro ⟨pending, found⟩ hfound j - x hx
      obtain ⟨sub, hsub, hx⟩ := exists_of_bind_eq_ok hx
      split at hx
      · cases hx
        exact hfound
      · cases hx
        exact List.append_subset.2 ⟨hfound, by simpa using mem_of_resolveInclude hsub⟩

/-- The submodules that go into a module are registered. -/
theorem mem_of_includedBy {l : List Source} (h : r.includedBy s = .ok l) (ht : t ∈ l) :
    t ∈ r.sources :=
  gatherIncludes_subset _ _ _ l (List.nil_subset _) h ht

end Registry

end YangSchema
