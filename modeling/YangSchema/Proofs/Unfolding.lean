import YangSchema.Proofs.Building
import YangSchema.Proofs.Schema.Trees
import YangSchema.Proofs.SourceOrder
import YangSchema.Proofs.Unfolding.Modules

/-!
# Expanding uses is replacing them

Where nothing is augmented and nothing deviates, a module of the schema holds what its sources yield
when every uses is replaced by the body of its grouping, and nothing else (`buildSchema_holds_iff`).
-/

namespace YangSchema

open Draft Edit Declare

/-- Nowhere in the source is a statement with the given word. -/
def ParsedSource.Lacks (word : Word) (p : ParsedSource) : Prop :=
  ∀ root, p.root = .ok root → root.Lacks word

variable {sources : List ParsedSource} {config : BuildConfig} {schema : Schema}

theorem bare_of_collectSources {r : Registry} (hr : collectSources sources = .ok r)
    (haug : ∀ p ∈ sources, p.Lacks .augment) (hdev : ∀ p ∈ sources, p.Lacks .deviation)
    {s : Source} (hs : s ∈ r.sources) : s.Bare := by
  obtain ⟨p, hp, root, hroot, hread⟩ := exists_of_collectSources hr hs
  obtain ⟨rfl, hchoice⟩ := Source.of_analyze hread
  exact ⟨hchoice, haug p hp _ hroot, hdev p hp _ hroot⟩

/-- If no source holds an augmentation or a deviation then each module of a schema holds, at all depths,
exactly the nodes that its text yields when every uses is replaced by the body of its grouping.  The text
of a module is what it says itself and what the submodules say that it reaches through includes. -/
theorem buildSchema_holds_iff (h : buildSchema sources config = .ok schema)
    (haug : ∀ p ∈ sources, p.Lacks .augment) (hdev : ∀ p ∈ sources, p.Lacks .deviation) :
    ∃ r order texts, collectSources sources = .ok r ∧ r.link = .ok order ∧
      (∀ l, List.Forall₂ r.HasText (order.filter (!·.isSubmodule)) l ↔ l = texts) ∧
      List.Forall₂ (fun T m => T.identity = m.identity ∧ ∀ path k,
        (∃ n ∈ m.topLevel.flatMap Node.preorder, n.path = path ∧ n.kind.keyword = k) ↔
          T.Holds texts path k) texts schema.modules := by
  obtain ⟨modules, w, hbuilds⟩ := exists_builds h
  obtain ⟨r, order, hr, hlink, hdeclared⟩ := hbuilds.declared
  have hbare : ∀ s ∈ r.sources, s.Bare := fun s hs => bare_of_collectSources hr haug hdev hs
  obtain ⟨texts, R, htexts, hrenders, haugments, hdeviations⟩ :=
    gives_declareModules_renders hbare hlink config modules w hdeclared
  obtain ⟨ms, d, hrun, hfrozen⟩ := hbuilds.exists_frozen_run hdeviations
  have htext : ∀ l, List.Forall₂ r.HasText (order.filter (!·.isSubmodule)) l ↔ l = texts := fun l =>
    ⟨fun hl => (Registry.HasText.unique r).forall₂ hl htexts, fun hl => hl ▸ htexts⟩
  refine ⟨r, order, texts, hr, hlink, htext, forall₂_join hrenders.texts hfrozen.snapshots
    fun i hi T m hT hm => ?_⟩
  have hstart := hbuilds.sane.from hbuilds.acyclic
  have hfollows := hfrozen.follows
  have hsite : w.draft.HasSite (.module i) := hT.lt
  constructor
  · rw [← hT.identity, ← hfollows.keeps.identity i hT.lt]
    exact congrArg ModuleFacts.identity hm.facts.symm
  intro path k
  -- the run expands uses and does nothing else
  have hnone : (w.tasks.stage w.draft).augments = [] := by
    show w.tasks.augments.mergeSort _ = []
    rw [haugments, List.mergeSort_nil]
  have hinner : ∀ t ∈ w.tasks.uses, (w.draft.usesOf t.uses).augmentations = [] := fun t ht =>
    (hrenders.fits.uses t ht).2.1
  have honly : w.draft.OnlyUnfolds w.tasks.uses w.draft := .refl fun i hi => by
    obtain ⟨c, hc, -⟩ := hrenders.shorthands i hi
    exact ⟨c, hc⟩
  have hend := hrun.onlyUnfolds hstart hnone (fun t ht => ⟨ht, hinner t ht⟩) honly
  rw [hfollows.mem_topLevel_iff hsite (hend.single _ hsite) hm]
  unfold ModuleText.Holds
  have hshows : ∀ top, d.Shows false (.module i) path.steps top k ↔
      ∃ P ∈ T.parts, Yields texts true P path.steps top k := fun top =>
    (hrun.shows_iff_unfolds hstart hnone hinner honly hsite).trans (hrenders.unfolds_module_iff hT)
  simp only [hshows]
  constructor
  · rintro ⟨habs, top, P, hP, hyields⟩
    exact ⟨habs, P, hP, top, hyields⟩
  · rintro ⟨habs, P, hP, top, hyields⟩
    exact ⟨habs, top, P, hP, hyields⟩

/-! ## An example -/

/-- A module with a uses in a grouping, and a uses of that in a choice. -/
def nestingSource : ParsedSource where
  label := "m.yang"
  root := .ok {
    keyword := .word .moduleWord
    argument := some "m"
    children := [
      { keyword := .word .namespaceWord, argument := some "urn:m" },
      { keyword := .word .prefixWord, argument := some "m" },
      { keyword := .word .choice, argument := some "ch"
        children := [{ keyword := .word .uses, argument := some "outer" }] },
      { keyword := .word .grouping, argument := some "outer"
        children := [
          { keyword := .word .container, argument := some "x"
            children := [{ keyword := .word .uses, argument := some "m:inner" }] }] },
      { keyword := .word .grouping, argument := some "inner"
        children := [{ keyword := .word .leaf, argument := some "a" }] }] }

/-- The leaf of the inner grouping stands in the container of the outer one, and this in a case. -/
theorem buildSchema_holds_iff_nestingSource :
    ∃ schema r order texts T, buildSchema [nestingSource] {} = .ok schema ∧
      collectSources [nestingSource] = .ok r ∧ r.link = .ok order ∧
      List.Forall₂ r.HasText (order.filter (!·.isSubmodule)) texts ∧ T ∈ texts ∧
      T.Holds texts ⟨true, ["ch", "x", "x", "a"].map (QName.mk ⟨"urn:m", none⟩)⟩ "leaf" := by
  have hcheck : ((buildSchema [nestingSource] {}).toOption.any fun schema =>
      (only? schema.modules).any fun m => (m.topLevel.flatMap Node.preorder).any fun n =>
        decide (n.path = ⟨true, ["ch", "x", "x", "a"].map (QName.mk ⟨"urn:m", none⟩)⟩ ∧
          n.kind.keyword = "leaf")) = true := by decide +kernel
  simp only [Option.any_eq_true, toOption_eq_some, only?_eq_some, List.any_eq_true,
    decide_eq_true_eq] at hcheck
  obtain ⟨schema, hschema, m, hm, n, hn, hpath, hkind⟩ := hcheck
  obtain ⟨r, order, texts, hr, hlink, htexts, hall⟩ := buildSchema_holds_iff hschema
    (fun p hp root hroot => by
      rw [List.mem_singleton.1 hp] at hroot
      cases hroot
      unfold Statement.Lacks
      decide +kernel)
    (fun p hp root hroot => by
      rw [List.mem_singleton.1 hp] at hroot
      cases hroot
      unfold Statement.Lacks
      decide +kernel)
  rw [hm] at hall
  obtain ⟨T, hT, -, hholds⟩ := exists_of_forall₂_right hall (List.mem_singleton_self m)
  exact ⟨schema, r, order, texts, T, hschema, hr, hlink, (htexts texts).2 rfl, hT,
    (hholds _ _).1 ⟨n, hn, hpath, hkind⟩⟩

end YangSchema
