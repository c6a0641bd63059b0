import YangSchema.Proofs.Linking
import YangSchema.Proofs.Unfolding.Declaring

/-!
# Declaring the texts of modules

The declaration of all modules comes to a workspace that renders their texts, if no source holds an
augmentation or a deviation (`gives_declareModules_renders`).
-/

namespace YangSchema

open Draft Edit Declare

variable {R R' O : Layout} {w w' : Workspace} {P : Place} {stmt : Statement} {k : Setting}

/-! ## Sources -/

/-- A body is opened at the top of a module. -/
theorem Layout.Fits.partAdded {m : ModuleId} (h : R.Fits O w) (hd : w.draft.Sound)
    (hm : w.draft.HasSite (.module m)) (hP : P.isChoice = false)
    (hfirst : (∃ Q, R (.module m) Q) ∨ w.draft.childrenOf (.module m) = []) :
    (R.add (.module m) P).Fits (O.add (.module m) P) w := by
  refine h.grow hd (.refl _) (fun _ _ => rfl) (R.le_add _ _) (O.le_add _ _) ?_ ?_
    ⟨[], (List.append_nil _).symm, by simp⟩
  · rintro s' P' (hP' | ⟨rfl, rfl⟩)
    · exact .inl hP'
    · exact .inr ⟨hm, hP.symm, fun i hi => (by cases hi), O.add_self _ _, fun hs => absurd rfl (hs m)⟩
  · rintro s' ⟨P', hP' | ⟨rfl, -⟩⟩ c hc
    · exact .inl ⟨⟨P', hP'⟩, hc⟩
    · rcases hfirst with hQ | hnone
      · exact .inl ⟨hQ, hc⟩
      · rw [hnone] at hc
        cases hc

namespace Setting

theorem gives_editFacts_alike {f : ModuleFacts → ModuleFacts} (hu : w.draft.Unfrozen)
    (hf : ∀ r, (f r).heading = r.heading) : Gives (k.editFacts f) w fun _ w' =>
      w.draft.Alike w'.draft ∧ w'.tasks = w.tasks ∧
        ∀ m, (w'.draft.module m).groupings = (w.draft.module m).groupings := by
  unfold editFacts
  refine gives_edit ((ends_editModule hu _ _).2 ⟨?_, rfl, fun m => ?_⟩)
  · exact alike_mapModule hu (fun r => hf r.facts) (by intro; rfl) (by intro; rfl) _
  · show ((w.draft.mapModule _ _).module m).groupings = _
    rw [module_mapModule]
    split <;> rfl

/-- Extensions, features and identities add nothing to the bodies. -/
theorem gives_declareTop_alike (hu : w.draft.Unfrozen) (haug : stmt.keyword ≠ .word .augment)
    (hdev : stmt.keyword ≠ .word .deviation) : Gives (k.declareTop stmt) w fun _ w' =>
      w.draft.Alike w'.draft ∧ w'.tasks = w.tasks ∧
        ∀ m, (w'.draft.module m).groupings = (w.draft.module m).groupings := by
  exact gives_declareTop_of (fun _ _ _ hf => gives_editFacts_alike hu hf.heading)
    (fun hk => absurd hk haug) (fun hk => absurd hk hdev) fun _ _ _ _ _ => ⟨.refl hu, rfl, fun _ => rfl⟩

/-- The source whose body is at `P` is declared. -/
structure SourceAdded (k : Setting) (R O : Layout) (w : Workspace) (P : Place) (R' : Layout)
    (w' : Workspace) : Prop where
  extends_layout : (R.add (.module k.target) P).Extends R' w.draft
  keeps : w.draft.Keeps w'.draft
  fits : R'.Fits O w'
  augments : w'.tasks.augments = w.tasks.augments
  deviations : w'.tasks.deviations = w.tasks.deviations
  listed : ∃ more,
    (w'.draft.module k.target).groupings = (w.draft.module k.target).groupings ++ more ∧
      R'.Lists w'.draft more P.groupings
  others : ∀ m, m ≠ k.target → (w'.draft.module m).groupings = (w.draft.module m).groupings

theorem gives_declareSource_added (h : k.Ready w) (hfits : R.Fits O w)
    (hprefixes : P.prefixes = k.prefixes) (haround : P.around = []) (hchoice : P.isChoice = false)
    (haug : P.body.Lacks .augment) (hdev : P.body.Lacks .deviation)
    (hfirst : (∃ Q, R (.module k.target) Q) ∨ w.draft.childrenOf (.module k.target) = []) :
    Gives (k.declareSource P.body) w fun _ w' => ∃ R', k.SourceAdded R O w P R' w' := by
  unfold declareSource
  rw [gives_bind]
  have hd := h.sane.sound
  refine (gives_forM (I := fun _ w' => k.Ready w' ∧ w.draft.Alike w'.draft ∧ w'.tasks = w.tasks ∧
    ∀ m, (w'.draft.module m).groupings = (w.draft.module m).groupings) P.body.children
    ⟨h, .refl hd.unfrozen, rfl, fun _ => rfl⟩ ?_).mono ?_
  · rintro pre c post w₁ hl ⟨h₁, halike, htasks, hgroupings⟩
    have hc : c ∈ P.body.children := by rw [hl]; simp
    rw [gives_located]
    refine ((gives_declareTop h₁).and (gives_declareTop_alike h₁.sane.sound.unfrozen
      (haug.of_mem_children hc).keyword_ne (hdev.of_mem_children hc).keyword_ne)).mono ?_
    rintro - w₂ ⟨⟨h₂, -⟩, halike₂, htasks₂, hgroupings₂⟩
    exact ⟨h₂, halike.trans halike₂, htasks₂.trans htasks,
      fun m => (hgroupings₂ m).trans (hgroupings m)⟩
  · rintro - w₁ ⟨h₁, halike, htasks, hgroupings⟩
    have hd₁ := h₁.sane.sound
    have hfits₁ : R.Fits O w₁ := hfits.quiet hd halike.keeps (fun u _ => halike.augmentations u)
      halike.childrenOf (by rw [htasks])
    have hopens : k.Opens (R.add (.module k.target) P) (O.add (.module k.target) P) w₁
        (.module k.target) P [] := by
      refine ⟨hd₁, h₁.stands, hfits₁.partAdded hd₁ h₁.lt hchoice ?_, R.add_self _ _,
        hprefixes, haug⟩
      rw [halike.childrenOf]
      exact hfirst
    have hscope : List.Forall₂ (R.add (.module k.target) P).Knows []
        (Place.scopeOf P.prefixes P.around) := by
      rw [haround]
      exact .nil
    refine ((k.rendersBodies P.body.depth _ _ w₁ _ P [] [] hopens hscope).and
      (k.declaresBodies P.body.depth _ P.body [] [] w₁ hd₁ h₁.stands)).mono ?_
    rintro - w₂ ⟨⟨R', h₂⟩, hw₂⟩
    obtain ⟨more, hmore, -⟩ := hw₂.tasks
    refine ⟨R', {
      extends_layout := (Layout.Extends.refl _ _).trans h₂.extends_layout halike.keeps
      keeps := halike.keeps.trans hw₂.enlarges.keeps
      fits := h₂.fits.close fun s' P' _ hO => ?_
      augments := by rw [hmore, htasks]
      deviations := by rw [hmore, htasks]
      listed := ?_
      others := fun m hm => ?_ }⟩
    · rcases hO with hO | ⟨rfl, rfl⟩
      · exact .inl hO
      · exact .inr h₂.complete
    · obtain ⟨gs, hgs, hall⟩ := h₂.groupings k.target rfl
      exact ⟨gs, by rw [hgs, hgroupings], hall⟩
    · rw [hw₂.enlarges.groupings m (fun h => hm (by cases h; rfl)), hgroupings]

end Setting

/-! ## Modules -/

namespace Layout.Describes

/-- What is said about a module stays while others are declared. -/
theorem mono {i : ModuleId} {T : ModuleText} (h : R.Describes w.draft i T) (hfits : R.Fits O w)
    (hR : R.Extends R' w.draft) (hk : w.draft.Keeps w'.draft)
    (hgroupings : (w'.draft.module i).groupings = (w.draft.module i).groupings) :
    R'.Describes w'.draft i T where
  lt := Nat.lt_of_lt_of_le h.lt hk.modules_le
  identity := (hk.identity i h.lt).trans h.identity
  parts P := by
    refine ⟨fun hP => (h.parts P).1 ?_, fun hP => hR.le _ _ ((h.parts P).2 hP)⟩
    exact (hR.fresh _ P hP).resolve_right fun hno => hno h.lt
  parts_ne := h.parts_ne
  groupings := by
    rw [hgroupings]
    exact hfits.lists_mono hR.le hk h.groupings

end Layout.Describes

/-- The source says nothing but what a body of its module may say without augmentations and
deviations. -/
structure Source.Bare (s : Source) : Prop where
  not_choice : s.root.keyword ≠ .word .choice
  augment : s.root.Lacks .augment
  deviation : s.root.Lacks .deviation

/-- While the sources of the module `m` are declared: the workspace was `w` before the module, and `w₁`
with the empty module. -/
structure PartsAdded (r : Registry) (own : ModuleIdentity) (m : ModuleId) (R : Layout)
    (w w₁ : Workspace) (pre : List Source) (parts : List Place) (R' : Layout) (w' : Workspace) :
    Prop where
  places : List.Forall₂ (fun s P => r.placeOf own s = .ok P) pre parts
  extends_layout : R.Extends R' w.draft
  keeps : w₁.draft.Keeps w'.draft
  fits : R'.Fits (fun _ _ => False) w'
  tops : ∀ P, R' (.module m) P ↔ P ∈ parts
  listed : R'.Lists w'.draft (w'.draft.module m).groupings (parts.flatMap Place.groupings)
  others : ∀ i, i ≠ m → (w'.draft.module i).groupings = (w₁.draft.module i).groupings
  augments : w'.tasks.augments = w₁.tasks.augments
  deviations : w'.tasks.deviations = w₁.tasks.deviations
  first : parts = [] → w'.draft.childrenOf (.module m) = []

theorem PartsAdded.nil (r : Registry) (own : ModuleIdentity) (hfits : R.Fits (fun _ _ => False) w)
    (hd : w.draft.Sound) {facts : ModuleDraft} (hc : facts.children = []) (hu : facts.uses = [])
    (hg : facts.groupings = []) {w₁ : Workspace} (hdraft : w₁.draft = w.draft.withModule facts)
    (htasks : w₁.tasks = w.tasks) :
    PartsAdded r own ⟨w.draft.modules.size⟩ R w w₁ [] [] R w₁ := by
  have hnew : ¬ w.draft.HasSite (.module ⟨w.draft.modules.size⟩) := Nat.lt_irrefl _
  have hchildren : ∀ s, w₁.draft.childrenOf s = w.draft.childrenOf s := fun s => by
    rw [hdraft, childrenOf_withModule hc]
  exact {
    places := .nil
    extends_layout := .refl R _
    keeps := .refl _
    fits := by
      refine hfits.quiet hd ?_ (fun u _ => ?_) hchildren (by rw [htasks])
      · rw [hdraft]
        exact Keeps.withModule w.draft hc hu
      · rw [hdraft]
        rfl
    tops := fun P => by simpa using fun hP => hnew (hfits.site _ P hP)
    listed := by
      rw [hdraft, module_withModule, if_pos rfl, hg]
      exact .nil
    others := fun _ _ => rfl
    augments := rfl
    deviations := rfl
    first := fun _ => (hchildren _).trans (childrenOf_of_not_hasSite hnew) }

theorem PartsAdded.next {r : Registry} {own : ModuleIdentity} {k : Setting} {w₁ w₂ w₃ : Workspace}
    {pre : List Source} {parts : List Place} {R₂ R₃ : Layout} {part : Source}
    (h : PartsAdded r own k.target R w w₁ pre parts R₂ w₂) (hm : ¬ w.draft.HasSite (.module k.target))
    (hm₂ : w₂.draft.HasSite (.module k.target)) (hkeeps : w.draft.Keeps w₁.draft)
    (hpart : r.placeOf own part = .ok P)
    (h₃ : k.SourceAdded R₂ (fun _ _ => False) w₂ P R₃ w₃) :
    PartsAdded r own k.target R w w₁ (pre ++ [part]) (parts ++ [P]) R₃ w₃ := by
  have hle : R₂ ≤ R₃ := le_trans (R₂.le_add _ _) h₃.extends_layout.le
  have hold : ∀ s' P', R₃ s' P' →
      R₂ s' P' ∨ s' = .module k.target ∧ P' = P ∨ ¬ w₂.draft.HasSite s' := fun s' P' hP' =>
    or_assoc.1 (h₃.extends_layout.fresh s' P' hP')
  exact {
    places := List.rel_append h.places (.cons hpart .nil)
    extends_layout := by
      refine ⟨le_trans h.extends_layout.le hle, fun s' P' hP' => ?_⟩
      rcases hold s' P' hP' with hP' | ⟨rfl, -⟩ | hno
      · exact h.extends_layout.fresh s' P' hP'
      · exact .inr hm
      · exact .inr fun hs' => hno (h.keeps.hasSite (hkeeps.hasSite hs'))
    keeps := h.keeps.trans h₃.keeps
    fits := h₃.fits
    tops := fun P' => by
      rw [List.mem_append, List.mem_singleton]
      constructor
      · intro hP'
        rcases hold _ P' hP' with hP' | ⟨-, hP'⟩ | hno
        · exact .inl ((h.tops P').1 hP')
        · exact .inr hP'
        · exact absurd hm₂ hno
      · rintro (hP' | rfl)
        · exact hle _ _ ((h.tops P').2 hP')
        · exact h₃.extends_layout.le _ _ (R₂.add_self _ _)
    listed := by
      obtain ⟨more, hmore, hall⟩ := h₃.listed
      rw [hmore, List.flatMap_append, List.flatMap_singleton]
      exact List.rel_append (h.fits.lists_mono hle h₃.keeps h.listed) hall
    others := fun i hi => (h₃.others i hi).trans (h.others i hi)
    augments := h₃.augments.trans h.augments
    deviations := h₃.deviations.trans h.deviations
    first := fun hnil => by simp at hnil }

/-- A module is declared from its text. -/
structure ModuleAdded (r : Registry) (s : Source) (R : Layout) (w : Workspace) (m : ModuleId)
    (T : ModuleText) (R' : Layout) (w' : Workspace) : Prop where
  text : r.HasText s T
  extends_layout : R.Extends R' w.draft
  keeps : w.draft.Keeps w'.draft
  fits : R'.Fits (fun _ _ => False) w'
  describes : R'.Describes w'.draft m T
  others : ∀ i, i.index < w.draft.modules.size →
    (w'.draft.module i).groupings = (w.draft.module i).groupings
  augments : w'.tasks.augments = w.tasks.augments
  deviations : w'.tasks.deviations = w.tasks.deviations

/-- When all its sources are declared the module is. -/
theorem PartsAdded.moduleAdded {r : Registry} {s : Source} {submodules : List Source}
    {own : ModuleIdentity} {facts : ModuleDraft} {w₁ : Workspace} {parts : List Place}
    (h : PartsAdded r own ⟨w.draft.modules.size⟩ R w w₁ (s :: submodules) parts R' w')
    (hsubmodules : r.Submodules s submodules) (hopens : r.Opens [s] [] submodules)
    (hown : r.effectiveIdentity s = .ok own) (hc : facts.children = []) (hu : facts.uses = [])
    (hidentity : facts.facts.identity = own)
    (hdraft : w₁.draft = w.draft.withModule facts) (htasks : w₁.tasks = w.tasks) :
    ModuleAdded r s R w ⟨w.draft.modules.size⟩ ⟨own, parts⟩ R' w' := by
  have hkeeps := h.keeps
  rw [hdraft] at hkeeps
  have hlt : w.draft.modules.size < (w.draft.withModule facts).modules.size :=
    Shelf.lt_size_push _ _
  refine {
    text := ⟨hown, submodules, hsubmodules, hopens, h.places⟩
    extends_layout := h.extends_layout
    keeps := (Keeps.withModule w.draft hc hu).trans hkeeps
    fits := h.fits
    describes := ⟨Nat.lt_of_lt_of_le hlt hkeeps.modules_le, ?_, h.tops, fun hnil => ?_, h.listed⟩
    others := fun i hi => ?_
    augments := by rw [h.augments, htasks]
    deviations := by rw [h.deviations, htasks] }
  · rw [hkeeps.identity ⟨w.draft.modules.size⟩ hlt, module_withModule_self]
    exact hidentity
  · have hplaces := h.places
    rw [show parts = [] from hnil] at hplaces
    cases hplaces
  · rw [h.others i fun h => Nat.ne_of_lt hi (congrArg ModuleId.index h), hdraft, module_withModule,
      if_neg (Nat.ne_of_lt hi)]

theorem gives_declareModule_added {r : Registry} (hr : ∀ t ∈ r.sources, t.Bare)
    (hresolves : r.Resolves) {s : Source} (hs : s ∈ r.sources) (config : BuildConfig) (rank : Nat)
    {modules : List ModuleId} (h : w.Declared modules) (hfits : R.Fits (fun _ _ => False) w) :
    Gives (declareModule r config rank s) w fun m w' =>
      ∃ T R', ModuleAdded r s R w m T R' w' := by
  refine gives_declareModule_of fun submodules own hsubmodules hown hother => ?_
  have hnew : ¬ w.draft.HasSite (.module ⟨w.draft.modules.size⟩) := Nat.lt_irrefl _
  have hparts : ∀ part ∈ s :: submodules, part.Bare := fun part hpart =>
    hr part ((List.mem_cons.1 hpart).elim (fun h => h ▸ hs) (Registry.mem_of_includedBy hsubmodules))
  refine ⟨fun pre w' => w'.Sane ∧ w'.Listed ∧ w'.draft.modules.size = w.draft.modules.size + 1 ∧
    (w'.draft.module ⟨w.draft.modules.size⟩).facts.identity = own ∧
    ∃ parts R', PartsAdded r own ⟨w.draft.modules.size⟩ R w
      (w.openModule (s.moduleFacts own submodules)) pre parts R' w', ?_, ?_, ?_⟩
  · have hsane := h.withModule (r := { facts := s.moduleFacts own submodules }) rfl rfl rfl rfl rfl hother
    exact ⟨hsane.congr rfl rfl rfl, h.listed.withModule rfl rfl rfl, Shelf.size_push _ _,
      w.identity_openModule _, [], R,
      .nil r own hfits h.sound rfl rfl rfl rfl rfl⟩
  · rintro pre part post w₂ hl ⟨hsane₂, hlisted₂, hsize₂, hid₂, parts, R₂, h₂⟩ prefixes hprefixes
    have hbare := hparts part (by rw [hl]; simp)
    have hplace : r.placeOf own part =
        .ok { prefixes := { prefixes with own }, body := part.root } := by
      unfold Registry.placeOf
      rw [hprefixes]
      rfl
    have hsite : w₂.draft.HasSite (.module ⟨w.draft.modules.size⟩) := by
      show _ < _
      rw [hsize₂]
      exact Nat.lt_succ_self _
    have hready : Setting.Ready ⟨{ prefixes with own }, ⟨w.draft.modules.size⟩, rank, config⟩ w₂ :=
      ⟨hsane₂, hlisted₂, hsize₂, hid₂⟩
    refine ((Setting.gives_declareSource hready).and (Setting.gives_declareSource_added
      (P := { prefixes := { prefixes with own }, body := part.root }) hready h₂.fits rfl rfl
      (beq_false_of_ne hbare.not_choice) hbare.augment hbare.deviation ?_)).mono ?_
    · cases parts with
      | nil => exact .inr (h₂.first rfl)
      | cons Q parts => exact .inl ⟨Q, (h₂.tops Q).2 List.mem_cons_self⟩
    · rintro - w₃ ⟨⟨⟨hsane₃, hlisted₃, hsize₃, hid₃⟩, -⟩, R₃, h₃⟩
      exact ⟨hsane₃, hlisted₃, hsize₃, hid₃, _, R₃,
        h₂.next hnew hsite (Keeps.withModule w.draft rfl rfl) hplace h₃⟩
  · rintro w₂ ⟨-, -, -, -, parts, R₂, h₂⟩
    obtain ⟨hreached, hopens⟩ := hresolves.of_includedBy hs hsubmodules
    exact ⟨_, R₂, h₂.moduleAdded hreached hopens hown rfl rfl rfl rfl rfl⟩

/-- The modules that are declared render their texts, if no source holds an augmentation or a
deviation; and nothing but uses is left to do. -/
theorem gives_declareModules_renders {r : Registry} (hr : ∀ t ∈ r.sources, t.Bare)
    {order : List Source} (hlink : r.link = .ok order) (config : BuildConfig) :
    Gives (declareModules r config order) {} fun modules w => ∃ (texts : List ModuleText) (R : Layout),
      List.Forall₂ r.HasText (order.filter (!·.isSubmodule)) texts ∧ R.Renders texts modules w ∧
        w.tasks.augments = [] ∧ w.tasks.deviations = [] := by
  unfold declareModules
  have hempty : Layout.Fits (fun _ _ => False) (fun _ _ => False) {} :=
    { site := fun _ _ h => h.elim
      choice := fun _ _ h => h.elim
      plain := fun _ _ h => h.elim
      unique := fun _ _ _ _ h => h.elim
      nodes := fun _ ⟨_, h⟩ => h.elim
      uses := fun _ h => by cases h
      done := fun _ _ h => h.elim }
  refine (gives_mapM (I := fun pre modules w => w.Declared modules ∧
    ∃ (texts : List ModuleText) (R : Layout),
      List.Forall₂ (fun (x : Source × Nat) T => r.HasText x.1 T) pre texts ∧
      R.Fits (fun _ _ => False) w ∧
      List.Forall₂ (R.Describes w.draft) modules texts ∧
        w.tasks.augments = [] ∧ w.tasks.deviations = []) _
    ⟨Workspace.declared_empty, [], fun _ _ => False, .nil, hempty, .nil, rfl, rfl⟩ ?_).mono ?_
  · rintro pre ⟨s, rank⟩ post modules w hl ⟨h, texts, R, htexts, hfits, hdescribes, haug, hdev⟩
    have hs : s ∈ r.sources := by
      have hmem : (s, rank) ∈ (order.filter (!·.isSubmodule)).zipIdx := by rw [hl]; simp
      exact Registry.mem_of_link hlink (List.mem_of_mem_filter (List.fst_mem_of_mem_zipIdx hmem))
    refine ((gives_declareModule r config rank s h).and
      (gives_declareModule_added hr (.of_link hlink) hs config rank h hfits)).mono ?_
    rintro m w' ⟨⟨h', -⟩, T, R', hadded⟩
    refine ⟨h', texts ++ [T], R', List.rel_append htexts (.cons hadded.text .nil), hadded.fits,
      List.rel_append (hdescribes.imp fun i T hT => ?_) (.cons hadded.describes .nil),
      hadded.augments.trans haug, hadded.deviations.trans hdev⟩
    exact hT.mono hfits hadded.extends_layout hadded.keeps (hadded.others i hT.lt)
  · rintro modules w ⟨h, texts, R, htexts, hfits, hdescribes, haug, hdev⟩
    refine ⟨texts, R, ?_, ⟨h, hfits, hdescribes⟩, haug, hdev⟩
    rw [← List.zipIdx_map_fst 0 (order.filter (!·.isSubmodule)), List.forall₂_map_left_iff]
    exact htexts

end YangSchema
