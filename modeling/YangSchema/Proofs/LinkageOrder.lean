import Mathlib.Data.List.Perm.Subperm
import YangSchema.Proofs.Building
import YangSchema.Proofs.Inference.Pruning
import YangSchema.Proofs.Linking
import YangSchema.Proofs.Search
import YangSchema.Proofs.SourceOrder

/-!
# The linkage order

The references of a registry are its imports and includes (`Registry.Refers`).  Where they all lead
somewhere, the sources are listed each after those that it refers to, or some of them refer to one
another in a circle, and that circle is what is reported (`Resolves.sorted_or_circle`).

The modules of a schema are the sources that are no submodules, in this order: each comes after those
that it imports, itself or by a submodule that it includes (`ModuleOrder`, `linkageOrder_sorts`).
-/

namespace YangSchema

open Relation Declare Draft

theorem exists_mapM_eq_ok {α β ε : Type} {f : α → Except ε β} {l : List α}
    (h : ∀ a ∈ l, ∃ b, f a = .ok b) : ∃ bs, l.mapM f = .ok bs := by
  induction l with
  | nil => exact ⟨[], rfl⟩
  | cons a l ih =>
    obtain ⟨b, hb⟩ := h a List.mem_cons_self
    obtain ⟨bs, hbs⟩ := ih fun a ha => h a (List.mem_cons_of_mem _ ha)
    rw [List.mapM_cons, hb, hbs]
    exact ⟨b :: bs, rfl⟩

/-- What a list is read to is what its elements are read to. -/
theorem mem_of_mapM_eq_ok {α β ε : Type} {f : α → Except ε β} {l : List α} {bs : List β}
    (h : l.mapM f = .ok bs) (b : β) : b ∈ bs ↔ ∃ a ∈ l, f a = .ok b := by
  constructor
  · exact exists_of_forall₂_right (forall₂_of_mapM_ok h)
  · rintro ⟨a, ha, hab⟩
    obtain ⟨b', hb', hab'⟩ := exists_of_forall₂_right (forall₂_of_mapM_ok h).flip ha
    rw [hab] at hab'
    cases hab'
    exact hb'

namespace Registry

variable {r : Registry} {s t : Source}

/-! ## References -/

def Imports (r : Registry) (s t : Source) : Prop := ∃ i ∈ s.imports, r.resolveImport i = .ok t

def Includes (r : Registry) (s t : Source) : Prop := ∃ i ∈ s.includes, r.resolveInclude s i = .ok t

/-- There is an edge from `s` to `t`: an import or an include. -/
def Refers (r : Registry) (s t : Source) : Prop := r.Imports s t ∨ r.Includes s t

/-- Every import and every include leads to a registered source of the right kind. -/
structure Resolves (r : Registry) : Prop where
  imports : ∀ s ∈ r.sources, ∀ i ∈ s.imports, ∃ t, r.resolveImport i = .ok t
  includes : ∀ s ∈ r.sources, ∀ i ∈ s.includes, ∃ t, r.resolveInclude s i = .ok t

theorem Refers.mem (h : r.Refers s t) : t ∈ r.sources := by
  rcases h with ⟨i, -, hi⟩ | ⟨i, -, hi⟩
  · exact mem_of_resolveImport hi
  · exact mem_of_resolveInclude hi

theorem eq_of_key_eq (hs : s ∈ r.sources) (ht : t ∈ r.sources) (hkey : s.key = t.key) : s = t :=
  List.inj_on_of_nodup_map r.ordered.nodup_keys hs ht hkey

theorem nodup_sources : r.sources.Nodup := r.ordered.nodup

theorem Resolves.dependencies (h : r.Resolves) (hs : s ∈ r.sources) :
    ∃ ts, r.dependencies s = .ok ts ∧ ∀ t, t ∈ ts ↔ r.Refers s t := by
  obtain ⟨imports, himports⟩ := exists_mapM_eq_ok (h.imports s hs)
  obtain ⟨includes, hincludes⟩ := exists_mapM_eq_ok (h.includes s hs)
  refine ⟨orderedBy Source.key (imports ++ includes), ?_, fun t => ?_⟩
  · unfold Registry.dependencies
    rw [himports, hincludes]
    rfl
  · have hmem : ∀ t, t ∈ imports ++ includes ↔ r.Refers s t := fun t => by
      rw [List.mem_append, mem_of_mapM_eq_ok himports, mem_of_mapM_eq_ok hincludes]
      rfl
    rw [← hmem]
    exact ⟨mem_of_mem_orderedBy, mem_orderedBy fun a ha b hb =>
      eq_of_key_eq ((hmem a).1 ha).mem ((hmem b).1 hb).mem⟩

/-! ## The search -/

/-- The fault for a circle of sources. -/
def circularSources (c : List Source) : Fault := ⟨.dependencyCycle (c.map Source.name), none⟩

theorem visit_eq_search : r.visit = search Source.key r.dependencies circularSources
    fun s => .nestedInItself s.key.render := by
  funext fuel
  induction fuel with
  | zero =>
    funext trail done s
    unfold visit search circularSources
    rw [List.map_append]
    rfl
  | succ fuel ih =>
    funext trail done s
    unfold visit search circularSources
    rw [List.map_append]
    simp only [ih]
    rfl

theorem Resolves.searchable (h : r.Resolves) :
    Searchable Source.key r.dependencies r.Refers (· ∈ r.sources) where
  targets _ hs := h.dependencies hs
  closed _ _ _ ht := ht.mem
  key_inj _ _ hs ht := eq_of_key_eq hs ht

/-- Where all references lead somewhere, the sources are sorted, or some refer to one another in a
circle. -/
theorem Resolves.sorted_or_circle (h : r.Resolves) :
    (∃ order, r.linkageOrder = .ok order ∧ Sorted r.Refers order ∧ order.Perm r.sources) ∨
      ∃ c, r.linkageOrder = .error (circularSources c) ∧ Circle r.Refers c := by
  unfold linkageOrder
  rw [visit_eq_search]
  have hfuel : ∀ l : List Source, l.Nodup → (∀ s ∈ l, s ∈ r.sources) → l.length ≤ r.size :=
    fun l hl hsub => (List.Nodup.subperm hl hsub).length_le
  refine (h.searchable.sorted_or_circle _ _ hfuel fun s hs => hs).imp_left ?_
  rintro ⟨order, horder, hsorted, hsub, hsub'⟩
  refine ⟨order, horder, hsorted, ?_⟩
  exact (List.perm_ext_iff_of_nodup hsorted.nodup nodup_sources).2 fun s => ⟨hsub' s, @hsub s⟩

/-! ## What linking makes sure of -/

/-- Where linking has passed, every later resolution succeeds. -/
theorem resolves_of_checkReferences (h : r.checkReferences = .ok ()) : ∀ s ∈ r.sources,
    (∀ i ∈ s.imports, ∃ t, r.resolveImport i = .ok t) ∧
    (∀ i ∈ s.includes, ∃ t, r.resolveInclude s i = .ok t) ∧ ∃ t, r.owningModule s = .ok t := by
  unfold checkReferences at h
  rw [forM_eq_ok] at h
  intro s hs
  have hsource := h s hs
  unfold checkSource at hsource
  simp only [forIn_eq_forM] at hsource
  obtain ⟨_, himports, hsource⟩ := exists_of_bind_eq_ok hsource
  obtain ⟨_, hincludes, howner⟩ := exists_of_bind_eq_ok hsource
  simp only [forM_eq_ok, discard_eq_ok, located_eq_ok] at himports hincludes howner
  exact ⟨himports, hincludes, howner⟩

theorem Resolves.of_link {order : List Source} (h : r.link = .ok order) : r.Resolves := by
  unfold link at h
  obtain ⟨_, hcheck, -⟩ := exists_of_bind_eq_ok h
  have hall := resolves_of_checkReferences hcheck
  exact ⟨fun s hs => (hall s hs).1, fun s hs => (hall s hs).2.1⟩

theorem sorted_of_link {order : List Source} (h : r.link = .ok order) :
    Sorted r.Refers order ∧ order.Perm r.sources := by
  obtain ⟨_, -, horder⟩ := exists_of_bind_eq_ok h
  rcases (Resolves.of_link h).sorted_or_circle with ⟨order', horder', hsorted⟩ | ⟨_, herror, -⟩
  · rw [horder] at horder'
    cases horder'
    exact hsorted
  · rw [horder] at herror
    cases herror

/-! ## The modules in linkage order -/

/-- What a source imports, itself or by a submodule that it includes, comes before it. -/
theorem mem_of_imports {order pre post : List Source} {part : Source}
    (h : Sorted r.Refers order) (horder : order = pre ++ s :: post)
    (hpart : ReflTransGen r.Includes s part) (ht : r.Imports part t) : t ∈ pre :=
  h.mem_of_transGen horder <| TransGen.tail' (ReflTransGen.mono (fun _ _ h => .inr h) _ _ hpart) (.inl ht)

theorem Imports.not_submodule (h : r.Imports s t) : t.isSubmodule = false := by
  obtain ⟨i, -, hi⟩ := h
  unfold resolveImport at hi
  obtain ⟨t', -, hi⟩ := exists_of_bind_eq_ok hi
  split at hi
  · cases hi
  · next hsub =>
    cases hi
    simpa using hsub

/-- The list holds the modules of the registry, each once and after those that it imports, itself or
by a submodule that it includes. -/
structure ModuleOrder (r : Registry) (mods : List Source) : Prop where
  perm : mods.Perm (r.sources.filter (!·.isSubmodule))
  nodup : (mods.map Source.key).Nodup
  before : ∀ pre s post, mods = pre ++ s :: post → ∀ part t,
    ReflTransGen r.Includes s part → r.Imports part t → t ∈ pre

theorem ModuleOrder.of_sorted {order : List Source} (h : Sorted r.Refers order)
    (hperm : order.Perm r.sources) : r.ModuleOrder (order.filter (!·.isSubmodule)) where
  perm := hperm.filter _
  nodup := by
    have hkeys : (order.map Source.key).Nodup := (hperm.map _).nodup_iff.2 r.ordered.nodup_keys
    exact hkeys.sublist (List.filter_sublist.map _)
  before := by
    intro pre s post horder part t hpart ht
    obtain ⟨pre', rest, rfl, rfl, hrest⟩ := List.filter_eq_append_iff.1 horder
    obtain ⟨mid, post', rfl, hmid, -, -⟩ := List.filter_eq_cons_iff.1 hrest
    have hmem : t ∈ pre' ++ mid := mem_of_imports h (by rw [List.append_assoc]) hpart ht
    -- between the modules there are only submodules, and nobody imports those
    have hmodule : (!t.isSubmodule) = true := by rw [ht.not_submodule]; rfl
    rcases List.mem_append.1 hmem with hpre | hsub
    · exact List.mem_filter.2 ⟨hpre, hmodule⟩
    · exact absurd hmodule (hmid t hsub)

end Registry

/-! ## The modules of a schema -/

section

variable {sources : List ParsedSource} {config : BuildConfig} {modules : List ModuleId} {w : Workspace}
  {schema : Schema}

/-- The modules of the schema have the headings under which they were declared. -/
theorem Builds.headings (h : Builds sources config modules w schema) :
    List.Forall₂ (fun i m => m.facts.heading = (w.draft.module i).facts.heading) modules
      schema.modules := by
  obtain ⟨d, d', hcourse⟩ := h.exists_course
  have hmodules : ∀ i ∈ modules, i.index < w.draft.modules.size := fun i =>
    (h.sane.mem_modules i).1
  refine ((List.forall₂_and_left _ _).2 ⟨hmodules, hcourse.snapshots⟩).imp ?_
  rintro i m ⟨hi, _, _, _, _, -, -, -, -, rfl⟩
  obtain ⟨_, -, hm⟩ := hcourse.pruned.module i
  show (d'.module i).facts.heading = _
  rw [hm]
  exact hcourse.follows.keeps.heading i hi

/-- The modules of the schema have the identities under which they were declared. -/
theorem Builds.identities (h : Builds sources config modules w schema) :
    List.Forall₂ (fun i m => m.identity = (w.draft.module i).facts.identity) modules schema.modules :=
  h.headings.imp fun _ _ => ModuleFacts.identity_of_heading

/-- The modules of a schema are those of the registry, in an order that suits the imports. -/
theorem exists_moduleOrder {r : Registry} (hr : collectSources sources = .ok r)
    (h : buildSchema sources config = .ok schema) : ∃ mods, r.ModuleOrder mods ∧
      List.Forall₂ (fun s m => r.effectiveIdentity s = .ok m.identity) mods schema.modules := by
  obtain ⟨modules, w, hbuilds⟩ := exists_builds h
  obtain ⟨r', order, hr', hlink, hdeclared⟩ := hbuilds.declared
  obtain rfl : r' = r := by
    rw [hr] at hr'
    cases hr'
    rfl
  refine ⟨order.filter (!·.isSubmodule), ?_, ?_⟩
  · obtain ⟨hsorted, hperm⟩ := Registry.sorted_of_link hlink
    exact .of_sorted hsorted hperm
  · have hsources := (gives_declareModules_ranked r' config order modules w hdeclared).2.2
    refine forall₂_join hsources.flip hbuilds.identities fun i _ s m hs hm => ?_
    rw [hs, hm]

end

/-- Where all references lead somewhere, the sources can be listed each after those that it refers to
exactly if none refers to itself, directly or not, and otherwise the names along a circle are reported.
So the modules of a schema come each after those that it imports, itself or by a submodule, in whatever
order the sources are given. -/
theorem linkageOrder_sorts (r : Registry) :
    (r.Resolves →
      ((∃ order, r.linkageOrder = .ok order) ↔ ∀ s, ¬ TransGen r.Refers s s) ∧
      (∀ order, r.linkageOrder = .ok order → order.Perm r.sources ∧ (order.map Source.key).Nodup ∧
        ∀ pre s post, order = pre ++ s :: post → ∀ t, r.Refers s t → t ∈ pre) ∧
      ∀ f, r.linkageOrder = .error f → ∃ c, Circle r.Refers c ∧
        f = ⟨.dependencyCycle (c.map Source.name), none⟩) ∧
    ∀ (sources : List ParsedSource) (config : BuildConfig) (schema : Schema),
      collectSources sources = .ok r → buildSchema sources config = .ok schema →
        (∃ mods, r.ModuleOrder mods ∧
          List.Forall₂ (fun s m => r.effectiveIdentity s = .ok m.identity) mods schema.modules) ∧
        ∀ sources', sources.Perm sources' → buildSchema sources' config = .ok schema := by
  refine ⟨fun h => ?_, fun sources config schema hr hschema =>
    ⟨exists_moduleOrder hr hschema, fun sources' hperm => ?_⟩⟩
  · rcases h.sorted_or_circle with ⟨order, horder, hsorted, hperm⟩ | ⟨c, herror, hcircle⟩
    · refine ⟨iff_of_true ⟨order, horder⟩ fun s hs => ?_, fun order' horder' => ?_, fun f hf => ?_⟩
      · have hmem : s ∈ order := by
          obtain ⟨t, -, ht⟩ := TransGen.tail'_iff.1 hs
          exact hperm.mem_iff.2 ht.mem
        exact hsorted.not_transGen_self hmem hs
      · rw [horder] at horder'
        cases horder'
        exact ⟨hperm, (hperm.map _).nodup_iff.2 r.ordered.nodup_keys, hsorted.before⟩
      · rw [horder] at hf
        cases hf
    · obtain ⟨s, -, hs⟩ := hcircle.exists_transGen
      refine ⟨iff_of_false ?_ fun hno => hno s hs, fun order horder => ?_, fun f hf => ⟨c, hcircle, ?_⟩⟩
      · rintro ⟨order, horder⟩
        rw [herror] at horder
        cases horder
      · rw [herror] at horder
        cases horder
      · rw [herror] at hf
        cases hf
        rfl
  · rw [← hschema, buildSchema, buildSchema, hr, collectSources_perm hperm hr]

/-! ## An example -/

/-- A module with a submodule. -/
def includingSource : ParsedSource where
  label := "a.yang"
  root := .ok {
    keyword := .word .moduleWord
    argument := some "a"
    children := [
      { keyword := .word .namespaceWord, argument := some "urn:a" },
      { keyword := .word .prefixWord, argument := some "a" },
      { keyword := .word .includeWord, argument := some "c" }] }

/-- The submodule, which imports another module. -/
def includedSource : ParsedSource where
  label := "c.yang"
  root := .ok {
    keyword := .word .submodule
    argument := some "c"
    children := [
      { keyword := .word .belongsTo, argument := some "a"
        children := [{ keyword := .word .prefixWord, argument := some "a" }] },
      { keyword := .word .importWord, argument := some "b"
        children := [{ keyword := .word .prefixWord, argument := some "b" }] }] }

/-- The module comes last: its submodule needs the other one. -/
theorem linkageOrder_sorts_includingSource :
    ∃ r order schema, collectSources [includingSource, includedSource, importedSource] = .ok r ∧
      r.Resolves ∧ r.linkageOrder = .ok order ∧ order.map Source.name = ["b", "c", "a"] ∧
      order.Perm r.sources ∧
      buildSchema [includingSource, includedSource, importedSource] {} = .ok schema ∧
      schema.modules.map Module.name = ["b", "a"] ∧ (∃ mods, r.ModuleOrder mods ∧
        List.Forall₂ (fun s m => r.effectiveIdentity s = .ok m.identity) mods schema.modules) ∧
      buildSchema [includedSource, includingSource, importedSource] {} = .ok schema := by
  have hcheck : ((collectSources [includingSource, includedSource, importedSource]).toOption.any
      fun r => (r.link.toOption.any fun order =>
          decide (order.map Source.name = ["b", "c", "a"])) &&
        (buildSchema [includingSource, includedSource, importedSource] {}).toOption.any fun schema =>
          decide (schema.modules.map Module.name = ["b", "a"])) = true := by decide +kernel
  simp only [Option.any_eq_true, toOption_eq_some, Bool.and_eq_true, decide_eq_true_eq] at hcheck
  obtain ⟨r, hr, ⟨order, hlink, hnames⟩, schema, hschema, hmodules⟩ := hcheck
  have hresolves := Registry.Resolves.of_link hlink
  obtain ⟨_, -, horder⟩ := exists_of_bind_eq_ok hlink
  obtain ⟨hall, hbuild⟩ := linkageOrder_sorts r
  obtain ⟨hmods, hperm⟩ := hbuild _ {} schema hr hschema
  exact ⟨r, order, schema, hr, hresolves, horder, hnames, ((hall hresolves).2.1 order horder).1,
    hschema, hmodules, hmods, hperm _ (.swap _ _ _)⟩

end YangSchema
