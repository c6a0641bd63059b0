import YangSchema.Proofs.Declaration.Module
import YangSchema.Proofs.Linking
import YangSchema.Proofs.Scoping

/-!
# Charts of what was declared

Every source that was declared has a chart: the outline of its statements and the groupings at its top.
The charts of the sources of one module, its own source first, make up its atlas; the module lists the
groupings of the charts in their order.  After the declaration of all modules there is an atlas for each,
and the tasks of the uses are those of the charts (`Registry.Mapped`).
-/

namespace YangSchema

open Draft Edit Declare

/-- What became of a source. -/
structure Chart where
  source : Source
  setting : Setting
  /-- The groupings at the top of the source. -/
  tops : List GroupingId
  outline : Outline

/-- What became of the sources of a module. -/
structure Atlas where
  /-- The own source of the module. -/
  source : Source
  target : ModuleId
  charts : List Chart

namespace Chart

/-- The names that the source defines groupings by at its top, each as often as it does. -/
def topNames (c : Chart) : List QName :=
  (c.source.root.all (.word .grouping)).filterMap fun g => g.argument.map c.setting.prefixes.ownName

/-- The chart is right about its source. -/
def Right (c : Chart) (d : Draft) : Prop := c.setting.Drawn c.source.root c.tops c.outline d

end Chart

theorem filterMap_eq_of_forall₂ {α β γ : Type} {f : α → Option γ} {g : β → γ} {l : List α}
    {l' : List β} (h : List.Forall₂ (fun a b => f a = some (g b)) l l') :
    l.filterMap f = l'.map g := by
  induction h with
  | nil => rfl
  | cons hab _ ih => rw [List.filterMap_cons_some hab, ih, List.map_cons]

namespace Setting

variable {k : Setting} {root : Statement} {gs gs' : List GroupingId} {o : Outline} {d d' : Draft}

theorem Drawn.ne_module (h : k.Drawn root gs o d) {t : Site} (ht : t ∈ o.sites) (m : ModuleId) :
    t ≠ .module m := by
  rintro rfl
  obtain ⟨p, hp⟩ := Outline.mem_sites.1 ht
  obtain ⟨c, -, hhouses, -⟩ := h.describes.bodies p _ hp
  exact hhouses

/-- What a module lists besides is no matter. -/
theorem Drawn.mono (h : k.Drawn root gs o d) {m : ModuleId} (hd : ListsMore (.module m) gs' d d') :
    k.Drawn root gs o d' where
  nodup := h.nodup
  there t ht := hd.hasSite (h.there t ht)
  listed := h.listed
  describes := h.describes.mono (List.Subset.refl _) hd fun t ht => ⟨h.there t ht, h.ne_module ht m⟩
  complete := h.complete

/-- The groupings at the top bear the names that they are given. -/
theorem Drawn.names_eq (h : k.Drawn root gs o d) :
    gs.map (fun g => (d.grouping g).facts.name) =
      (root.all (.word .grouping)).filterMap fun c => c.argument.map k.prefixes.ownName := by
  have hnamed : List.Forall₂ (fun e g => e.1.argument.map k.prefixes.ownName =
      some (d.grouping g).facts.name) (root.allAt (.word .grouping)) gs := by
    refine List.forall₂_iff_zip.2 ⟨h.listed.length_eq, fun {e g} heg => ?_⟩
    obtain ⟨c, hin, ⟨-, text, htext, hname⟩, -⟩ := h.describes.bodies _ _
      ((List.forall₂_iff_zip.1 h.listed).2 heg)
    have hc := hin.at?
    rw [Statement.at?_cons (Statement.mem_allAt.1 (List.of_mem_zip heg).1).1, Statement.at?] at hc
    cases hc
    rw [htext, Option.map_some, hname]
  rw [← Statement.map_fst_allAt, List.filterMap_map]
  exact (filterMap_eq_of_forall₂ hnamed).symm

end Setting

namespace Registry

variable {r : Registry} {a : Atlas} {d d' : Draft} {w w' : Workspace} {s : Source}

/-- The chart is one of a source of the module `m`, with the prefixes that the source binds. -/
structure Binds (r : Registry) (m : ModuleId) (own : ModuleIdentity) (c : Chart) : Prop where
  target : c.setting.target = m
  prefixes : ∃ b, Prefixes.ofSource r c.source = .ok b ∧ c.setting.prefixes = { b with own }

/-- The atlas is right about its module. -/
structure Charted (r : Registry) (a : Atlas) (d : Draft) : Prop where
  there : d.HasSite (.module a.target)
  sources : ∃ subs, r.includedBy a.source = .ok subs ∧ a.charts.map Chart.source = a.source :: subs
  binds : ∃ own, r.effectiveIdentity a.source = .ok own ∧ ∀ c ∈ a.charts, r.Binds a.target own c
  groupings : d.groupingsAt (.module a.target) = a.charts.flatMap Chart.tops
  right : ∀ c ∈ a.charts, c.Right d

/-- Later declarations leave the module alone. -/
theorem Charted.mono (h : r.Charted a d) (hd : d.KeepsLists d') : r.Charted a d' where
  there := hd.hasSite h.there
  sources := h.sources
  binds := h.binds
  groupings := (hd.listed _ h.there).trans h.groupings
  right c hc := (h.right c hc).mono (hd.listsMore (.module a.target))

/-! ## One module -/

theorem gives_declareModule_charted (hr : ∀ t ∈ r.sources, t.root.keyword ≠ .word .uses)
    (hs : s ∈ r.sources) (config : BuildConfig) (rank : Nat) :
    Gives (declareModule r config rank s) w fun m w' => ∃ cs, w.draft.KeepsLists w'.draft ∧
      w'.tasks.uses = w.tasks.uses ++ cs.flatMap (fun c => c.outline.tasks) ∧
      r.Charted ⟨s, m, cs⟩ w'.draft := by
  refine gives_declareModule_of fun subs own hsubs hown _ => ?_
  generalize hm : (⟨w.draft.modules.size⟩ : ModuleId) = m
  have hnew : ¬ w.draft.HasSite (.module m) := by
    rw [← hm]
    exact Nat.lt_irrefl _
  have hopened : w.draft.KeepsLists (w.openModule (s.moduleFacts own subs)).draft :=
    keepsLists_withModule w.draft _
  have hthere : (w.openModule (s.moduleFacts own subs)).draft.HasSite (.module m) := by
    rw [← hm]
    exact w.lt_openModule _
  have hnone : (w.openModule (s.moduleFacts own subs)).draft.groupingsAt (.module m) = [] := by
    show ((w.draft.withModule _).module m).groupings = []
    rw [module_withModule, ← hm, if_pos rfl]
  refine ⟨fun pre w' => ∃ cs : List Chart, cs.map Chart.source = pre ∧
    ListsMore (.module m) (cs.flatMap Chart.tops) (w.openModule (s.moduleFacts own subs)).draft w'.draft ∧
    w'.tasks.uses = w.tasks.uses ++ cs.flatMap (fun c => c.outline.tasks) ∧
    ∀ c ∈ cs, r.Binds m own c ∧ c.Right w'.draft, ?_, ?_, ?_⟩
  · exact ⟨[], rfl, (KeepsLists.refl _).listsMore _, (List.append_nil _).symm, by simp⟩
  · rintro pre part post w₁ hsplit ⟨cs, rfl, hlists, htasks, hcs⟩ prefixes hprefixes
    have hpart : part ∈ r.sources := by
      have hmem : part ∈ s :: subs := by rw [hsplit]; simp
      exact (List.mem_cons.1 hmem).elim (fun h => h ▸ hs) (mem_of_includedBy hsubs)
    refine (Setting.gives_declareSource_scoped (hlists.hasSite hthere) (hr part hpart)).mono ?_
    rintro _ w₂ ⟨gs, o, hscoped⟩
    refine ⟨cs ++ [⟨part, ⟨{ prefixes with own }, m, rank, config⟩, gs, o⟩], by simp, ?_, ?_, ?_⟩
    · simpa using hlists.trans hscoped.made.lists
    · simp [hscoped.made.tasks, htasks]
    · intro c hc
      rcases List.mem_append.1 hc with hc | hc
      · exact ⟨(hcs c hc).1, (hcs c hc).2.mono hscoped.made.lists⟩
      · cases List.mem_singleton.1 hc
        exact ⟨⟨rfl, prefixes, hprefixes, rfl⟩, hscoped.toDrawn⟩
  · rintro w₁ ⟨cs, hsources, hlists, htasks, hcs⟩
    have hkeeps := (hopened.listsMore (.module m)).trans_new hlists hnew
    refine ⟨cs, hkeeps.keepsLists, htasks, hlists.hasSite hthere, ⟨subs, hsubs, hsources⟩,
      ⟨own, hown, fun c hc => (hcs c hc).1⟩, ?_, fun c hc => (hcs c hc).2⟩
    exact (hlists.at_self hthere).trans (congrArg (· ++ cs.flatMap Chart.tops) hnone)

/-! ## All modules -/

/-- The atlases of the modules, in the order in which these were declared. -/
structure Mapped (r : Registry) (order : List Source) (modules : List ModuleId) (w : Workspace)
    (as : List Atlas) : Prop where
  sources : as.map Atlas.source = order.filter (!·.isSubmodule)
  modules : as.map Atlas.target = modules
  tasks : w.tasks.uses = as.flatMap fun a => a.charts.flatMap fun c => c.outline.tasks
  charted : ∀ a ∈ as, r.Charted a w.draft

theorem gives_declareModules_mapped (hr : ∀ t ∈ r.sources, t.root.keyword ≠ .word .uses)
    (config : BuildConfig) {order : List Source} (horder : order ⊆ r.sources) :
    Gives (declareModules r config order) {} fun modules w => ∃ as, r.Mapped order modules w as := by
  unfold declareModules
  refine (gives_mapM (I := fun pre modules w => ∃ as : List Atlas,
    as.map Atlas.source = pre.map Prod.fst ∧ as.map Atlas.target = modules ∧
    w.tasks.uses = as.flatMap (fun a => a.charts.flatMap fun c => c.outline.tasks) ∧
    ∀ a ∈ as, r.Charted a w.draft) _ ⟨[], rfl, rfl, rfl, by simp⟩ ?_).mono ?_
  · rintro pre ⟨s, rank⟩ post modules w hsplit ⟨as, hsources, hmodules, htasks, hcharted⟩
    have hmem : (s, rank) ∈ (order.filter (!·.isSubmodule)).zipIdx := by rw [hsplit]; simp
    have hs : s ∈ r.sources := horder (List.mem_of_mem_filter (List.fst_mem_of_mem_zipIdx hmem))
    refine (gives_declareModule_charted hr hs config rank).mono ?_
    rintro m w' ⟨cs, hkeeps, htasks', hcharted'⟩
    refine ⟨as ++ [⟨s, m, cs⟩], by simp [hsources], by simp [hmodules], ?_, fun a ha => ?_⟩
    · simp [htasks', htasks]
    · rcases List.mem_append.1 ha with ha | ha
      · exact (hcharted a ha).mono hkeeps
      · cases List.mem_singleton.1 ha
        exact hcharted'
  · rintro modules w ⟨as, hsources, hmodules, htasks, hcharted⟩
    refine ⟨as, ⟨?_, hmodules, htasks, hcharted⟩⟩
    rw [hsources, List.zipIdx_map_fst]

end Registry

end YangSchema
