import YangSchema.Proofs.LinkageOrder
import YangSchema.Proofs.Reading

/-!
# What is found once linking has passed

Sources that are read say which module they belong to (`Source.Allied`).  Linking looks up all imports,
all includes and all owning modules, so later every look-up succeeds, whoever makes it
(`Registry.Linked`); in particular prefixes are bound, unless one is bound twice.
-/

namespace YangSchema

open Relation

/-- A loop whose rounds succeed succeeds. -/
theorem exists_foldlM_eq_ok {α β ε : Type} {f : β → α → Except ε β} {I : β → Prop} {l : List α}
    (hf : ∀ b, I b → ∀ a ∈ l, ∃ b', f b a = .ok b' ∧ I b') {b : β} (hb : I b) :
    ∃ b', l.foldlM f b = .ok b' ∧ I b' := by
  induction l generalizing b with
  | nil => exact ⟨b, rfl, hb⟩
  | cons a l ih =>
    obtain ⟨b₁, hb₁, hI₁⟩ := hf b hb a List.mem_cons_self
    obtain ⟨b', hb', hI'⟩ := ih (fun b hb a ha => hf b hb a (List.mem_cons_of_mem _ ha)) hI₁
    exact ⟨b', by rw [List.foldlM_cons, hb₁]; exact hb', hI'⟩

/-! ## Reading sources -/

/-- A module states its namespace, and a submodule its parent. -/
structure Source.Allied (s : Source) : Prop where
  namespaceUri : s.isSubmodule = false → ∃ uri, s.namespaceUri = some uri
  parent : s.isSubmodule = true → ∃ parent, s.parent = some parent

theorem Source.allied_of_analyze {label : String} {root : Statement} {s : Source}
    (h : analyze label root = .ok s) : s.Allied := by
  obtain ⟨-, hkind, name, hread⟩ := exists_of_analyze h
  rcases hkind with ⟨-, hkind⟩ | ⟨-, hkind⟩
  · have hsub : s.isSubmodule = false := by rw [isSubmodule, hkind]; rfl
    rw [hkind] at hread
    obtain ⟨⟨_, uri⟩, -, hread⟩ := exists_of_bind_eq_ok hread
    obtain ⟨_, -, hread⟩ := exists_of_bind_eq_ok hread
    refine ⟨fun _ => ⟨uri, (Prod.mk.inj (Except.ok.inj hread)).1.symm⟩, fun h => ?_⟩
    rw [hsub] at h
    cases h
  · have hsub : s.isSubmodule = true := by rw [isSubmodule, hkind]; rfl
    rw [hkind] at hread
    obtain ⟨⟨belongs, parent⟩, -, hread⟩ := exists_of_bind_eq_ok hread
    dsimp only at hread
    split at hread
    · refine ⟨fun h => ?_, fun _ => ⟨_, (Prod.mk.inj (Prod.mk.inj (Except.ok.inj hread)).2).1.symm⟩⟩
      rw [hsub] at h
      cases h
    · cases hread

theorem ParsedSource.failsOnly_analyze (p : ParsedSource) :
    FailsOnly (Cause.Of .sourcePreLinkage) p.analyze := by
  unfold analyze
  split
  · exact Source.failsOnly_analyze _ _
  · exact .malformed_locate _ _

theorem failsOnly_collectSources (sources : List ParsedSource) :
    FailsOnly (Cause.Of .sourcePreLinkage) (collectSources sources) := by
  refine .foldlM (I := fun _ => True) _ (fun p _ r _ => ⟨?_, fun _ _ => trivial⟩) trivial
  refine p.failsOnly_analyze.bind fun s _ => ?_
  unfold Registry.register
  split
  · exact .error List.mem_cons_self
  · exact .ok _

namespace Registry

variable {sources : List ParsedSource} {r : Registry} {order : List Source} {s : Source} {p : Phase}

theorem allied_of_collectSources (h : collectSources sources = .ok r) : ∀ s ∈ r.sources, s.Allied := by
  intro s hs
  obtain ⟨p, -, root, -, hread⟩ := exists_of_collectSources h hs
  exact Source.allied_of_analyze hread

/-! ## Linking -/

theorem failsOnly_resolve (name : String) (revision : Option Revision) :
    FailsOnly (Cause.Of .linkage) (r.resolve name revision) := by
  unfold resolve
  dsimp only
  split
  · exact .ok _
  · exact .error List.mem_cons_self

theorem failsOnly_resolveImport (i : Import) : FailsOnly (Cause.Of .linkage) (r.resolveImport i) := by
  refine (failsOnly_resolve _ _).bind fun t _ => ?_
  dsimp only
  split
  · exact .malformed _
  · exact .ok _

theorem failsOnly_resolveInclude (i : Include) :
    FailsOnly (Cause.Of .linkage) (r.resolveInclude s i) := by
  refine (failsOnly_resolve _ _).bind fun t _ => ?_
  split
  · split
    · exact .ok _
    · exact .malformed _
  · exact .malformed _

theorem failsOnly_owningModule : FailsOnly (Cause.Of .linkage) (r.owningModule s) := by
  unfold owningModule
  split
  · exact .ok _
  · refine (failsOnly_resolve _ _).bind fun t _ => ?_
    dsimp only
    split
    · exact .malformed _
    · exact .ok _

theorem failsOnly_checkReferences : FailsOnly (Cause.Of .linkage) r.checkReferences := by
  refine .forM _ fun s _ => ?_
  unfold checkSource
  simp only [forIn_eq_forM]
  refine .bind (.forM _ fun i _ => ((failsOnly_resolveImport i).located _).discard) fun _ _ => ?_
  refine .bind (.forM _ fun i _ => ((failsOnly_resolveInclude i).located _).discard) fun _ _ => ?_
  exact (failsOnly_owningModule.located _).discard

/-- Sources that are not there, and sources in a circle, are found out when linking. -/
theorem failsOnly_link : FailsOnly (Cause.Of .linkage) r.link := by
  refine failsOnly_checkReferences.bind fun _ hcheck f hf => ?_
  have hall := resolves_of_checkReferences hcheck
  have hresolves : r.Resolves := ⟨fun s hs => (hall s hs).1, fun s hs => (hall s hs).2.1⟩
  rcases hresolves.sorted_or_circle with ⟨order, horder, -⟩ | ⟨c, hc, -⟩
  · rw [horder] at hf
    cases hf
  · rw [hc] at hf
    cases hf
    exact List.mem_cons_self

/-! ## Linked registries -/

/-- All that is looked up is found. -/
structure Linked (r : Registry) : Prop extends r.Resolves where
  owners : ∀ s ∈ r.sources, ∃ t, r.owningModule s = .ok t
  allied : ∀ s ∈ r.sources, s.Allied

theorem Linked.of_link (hr : collectSources sources = .ok r) (h : r.link = .ok order) : r.Linked := by
  obtain ⟨_, hcheck, -⟩ := exists_of_bind_eq_ok h
  have hall := resolves_of_checkReferences hcheck
  exact ⟨.of_link h, fun s hs => (hall s hs).2.2, allied_of_collectSources hr⟩

namespace Linked

variable (h : r.Linked)
include h

theorem effectiveIdentity (hs : s ∈ r.sources) : ∃ own, r.effectiveIdentity s = .ok own := by
  obtain ⟨t, ht⟩ := h.owners s hs
  have hmodule : t ∈ r.sources ∧ t.isSubmodule = false := by
    unfold owningModule at ht
    split at ht
    · next hparent =>
      cases ht
      refine ⟨hs, Bool.eq_false_iff.2 fun hsub => ?_⟩
      obtain ⟨parent, hsome⟩ := (h.allied s hs).parent hsub
      rw [hparent] at hsome
      cases hsome
    · obtain ⟨owner, howner, ht⟩ := exists_of_bind_eq_ok ht
      dsimp only at ht
      split at ht
      · cases ht
      · next hsub =>
        cases ht
        exact ⟨mem_of_resolve howner, Bool.eq_false_iff.2 hsub⟩
  obtain ⟨uri, huri⟩ := (h.allied t hmodule.1).namespaceUri hmodule.2
  refine ⟨⟨uri, t.revision⟩, ?_⟩
  unfold Registry.effectiveIdentity
  rw [ht]
  dsimp only [bind, Except.bind]
  rw [huri]
  rfl

/-- The prefixes of a source can be bound, unless one is bound twice. -/
theorem failsOnly_ofSource (hs : s ∈ r.sources) : FailsOnly (Cause.Of p) (Prefixes.ofSource r s) := by
  obtain ⟨own, hown⟩ := h.effectiveIdentity hs
  unfold Prefixes.ofSource
  rw [hown]
  refine .foldlM (I := fun _ => True) _ (fun i hi b _ => ⟨?_, fun _ _ => trivial⟩) trivial
  obtain ⟨t, ht⟩ := h.imports s hs i hi
  obtain ⟨own', hown'⟩ := h.effectiveIdentity (mem_of_resolveImport ht)
  rw [ht]
  show FailsOnly _ (r.effectiveIdentity t >>= fun m => b.add i.binding m)
  rw [hown']
  show FailsOnly _ (b.add i.binding own')
  unfold Prefixes.add
  split
  · exact .malformed _
  · exact .ok _

theorem failsOnly_checkPrefixes (horder : ∀ s ∈ order, s ∈ r.sources) :
    FailsOnly (Cause.Of .statementDefinition) (checkPrefixes r order) :=
  .forM _ fun s hs => ((h.failsOnly_ofSource (horder s hs)).located _).discard

theorem gatherIncludes (fuel : Nat) : ∀ pending found : List Source, (∀ s ∈ pending, s ∈ r.sources) →
    ∃ l, r.gatherIncludes fuel pending found = .ok l := by
  induction fuel with
  | zero => exact fun pending found _ => ⟨found, rfl⟩
  | succ fuel ih =>
    intro pending found hpending
    cases pending with
    | nil => exact ⟨found, rfl⟩
    | cons including pending =>
      obtain ⟨hincluding, hpending⟩ := List.forall_mem_cons.1 hpending
      have hround : ∀ b : List Source × List Source, (∀ s ∈ b.1, s ∈ r.sources) →
          ∀ i ∈ including.includes.reverse, ∃ b', (do
            let sub ← r.resolveInclude including i
            if b.2.any (·.key == sub.key) then return (b.1, b.2)
            else return (sub :: b.1, b.2 ++ [sub]) : Except Fault _) = .ok b' ∧
              ∀ s ∈ b'.1, s ∈ r.sources := by
        intro b hb i hi
        obtain ⟨sub, hsub⟩ := h.includes including hincluding i (List.mem_reverse.1 hi)
        rw [hsub]
        cases hfound : b.2.any (·.key == sub.key) with
        | true => exact ⟨b, by simp only [bind, Except.bind, hfound]; rfl, hb⟩
        | false =>
          exact ⟨(sub :: b.1, b.2 ++ [sub]), by simp only [bind, Except.bind, hfound]; rfl,
            List.forall_mem_cons.2 ⟨mem_of_resolveInclude hsub, hb⟩⟩
      obtain ⟨b, hb, hmem⟩ := exists_foldlM_eq_ok hround (b := (pending, found)) hpending
      obtain ⟨l, hl⟩ := ih b.1 b.2 hmem
      refine ⟨l, ?_⟩
      unfold Registry.gatherIncludes
      rw [hb]
      exact hl

theorem includedBy (hs : s ∈ r.sources) : ∃ l, r.includedBy s = .ok l := by
  refine h.gatherIncludes _ [s] [] fun t ht => ?_
  rw [List.mem_singleton.1 ht]
  exact hs

end Linked

end Registry

end YangSchema
