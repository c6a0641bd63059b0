import YangSchema.Proofs.Draft.Implanting
import YangSchema.Proofs.Inference.Grafts

/-!
# The strokes of a run

Carrying out a task takes many small edits: one node or one uses of a body is copied to the place where
it goes, one node is refined, one node takes note of an augmentation, one uses of its grouping
(`Stage.Stroke`).  A run is a sequence of such strokes (`Run.strokes`).  So what copying keeps and such
notes keep holds of the draft that a run comes to (`Stage.Strokes.rule`).
-/

namespace YangSchema

open Draft Edit Relation

/-- From the stage `S` on a task brings copies of what stands in the body to the site, in this style. -/
inductive Stage.Brings (S : Stage) (d : Draft) : CopyStyle → Site → Owner → Prop
  /-- The body of a grouping goes to the place of a uses. -/
  | body {t : UsesTask} {g : GroupingId} (ht : t ∈ S.uses) (hg : t.resolve S.draft = some g) :
    S.Brings d t.style t.site (.grouping g)
  /-- The body of an augmentation in a uses goes to a node at the place of the uses. -/
  | inner {t : UsesTask} {a : AugmentId} {n : NodeId} (ht : t ∈ S.uses)
    (ha : a ∈ (S.draft.usesOf t.uses).augmentations) (hn : d.Under (.node n) t.site) :
    S.Brings d { augmenting := true } (.node n) (.augment a)
  /-- The body of another augmentation goes to a node below a module. -/
  | top {t : AugmentTask} {m : ModuleId} {n : NodeId} (ht : t ∈ S.augments)
    (hn : d.Under (.node n) (.module m)) :
    S.Brings d { augmenting := true } (.node n) (.augment t.augment)

/-- The smallest edits of the inference. -/
inductive Stage.Stroke (S : Stage) : Draft → Draft → Prop
  /-- A node or a uses of a body is copied to the site. -/
  | copy {style : CopyStyle} {s : Site} {b : Owner} {d d₁ : Draft} (hd : d.Sound)
    (hb : S.Brings d style s b) (hs : d.HasSite s)
    (h : Implanted style s (d.Inside (.site b.site)) d d₁) : S.Stroke d d₁
  | refine {d : Draft} (n : NodeId) (r : Refinement) : S.Stroke d (d.mapNode n r.apply)
  /-- A node takes note of an augmentation that was merged into it. -/
  | note {style : CopyStyle} {n : NodeId} {a : AugmentId} {d : Draft} (hd : d.Sound)
    (hb : S.Brings d style (.node n) (.augment a)) (unknown : List UnknownStatement) :
    S.Stroke d (d.mapNode n (noteMerged a unknown))
  /-- A uses says where its grouping is. -/
  | mark {d : Draft} (u : UsesId) (p : SchemaPath) : S.Stroke d (d.marked u p)

/-- The draft was changed by strokes. -/
abbrev Stage.Strokes (S : Stage) : Draft → Draft → Prop := ReflTransGen S.Stroke

/-- The strokes that copy something. -/
def Stage.Plant (S : Stage) (d d₁ : Draft) : Prop :=
  ∃ style s, ∃ b : Owner, d.Sound ∧ S.Brings d style s b ∧ d.HasSite s ∧
    Implanted style s (d.Inside (.site b.site)) d d₁

/-- The draft was changed by copying only. -/
abbrev Stage.Plants (S : Stage) : Draft → Draft → Prop := ReflTransGen S.Plant

theorem Stage.Plant.stroke {S : Stage} {d d₁ : Draft} (h : S.Plant d d₁) : S.Stroke d d₁ := by
  obtain ⟨_, _, _, hd, hb, hs, himplanted⟩ := h
  exact .copy hd hb hs himplanted

theorem Stage.Plants.strokes {S : Stage} {d d₁ : Draft} (h : S.Plants d d₁) : S.Strokes d d₁ :=
  ReflTransGen.mono (fun _ _ hplant => Stage.Plant.stroke hplant) _ _ h

variable {S : Stage} {d d₁ d₂ : Draft} {style : CopyStyle} {s : Site} {b : Owner} {n : NodeId}
  {a : AugmentId}

/-! ## Strokes that copy nothing -/

namespace Draft

/-- All definitions stay where they are and list what they listed, but nodes may take note of
augmentations. -/
structure Annotated (d d₁ : Draft) : Prop extends d.Alike d₁ where
  byUses : ∀ i, (d₁.node i).facts.byUses = (d.node i).facts.byUses
  groupingsAt : ∀ t, d₁.groupingsAt t = d.groupingsAt t
  augment : ∀ a, d₁.augment a = d.augment a
  module : ∀ m, d₁.module m = d.module m

theorem annotated_mapNode {f : NodeDraft → NodeDraft} (hf : Harmless f)
    (hbyUses : ∀ r, (f r).facts.byUses = r.facts.byUses) (hgroupings : ∀ r, (f r).groupings = r.groupings)
    (hd : d.Unfrozen) (n : NodeId) : Annotated d (d.mapNode n f) where
  toAlike := hf.alike hd n
  byUses i := by
    rw [node_mapNode]
    split
    · exact hbyUses _
    · rfl
  groupingsAt t := by
    cases t with
    | node i =>
      show ((d.mapNode n f).node i).groupings = _
      rw [node_mapNode]
      split
      · exact hgroupings _
      · rfl
    | _ => rfl
  augment _ := rfl
  module _ := rfl

end Draft

theorem Stage.Stroke.plant_or_annotated (h : S.Stroke d d₁) (hd : d.Sound) :
    S.Plant d d₁ ∨ Annotated d d₁ := by
  cases h with
  | copy hd hb hs himplanted => exact .inl ⟨_, _, _, hd, hb, hs, himplanted⟩
  | refine n r =>
    exact .inr (annotated_mapNode (harmless_refinement r) (by intro; rfl) (by intro; rfl) hd.unfrozen n)
  | note _ hb unknown =>
    exact .inr (annotated_mapNode (harmless_noteMerged _ unknown) (by intro; rfl) (by intro; rfl)
      hd.unfrozen _)
  | mark u p =>
    refine .inr ⟨alike_mapUses (by intro; rfl) hd.unfrozen u, fun _ => rfl, fun t => ?_, fun _ => rfl,
      fun _ => rfl⟩
    cases t <;> rfl

theorem Stage.Stroke.sound (h : S.Stroke d d₁) (hd : d.Sound) : d₁.Sound := by
  rcases h.plant_or_annotated hd with ⟨_, _, _, -, -, -, himplanted⟩ | ha
  · exact himplanted.sound
  · exact ha.sound hd

/-- What copying keeps and notes keep, strokes keep. -/
theorem Stage.Strokes.rule {P : Draft → Prop} (h : S.Strokes d d₁) (hd : d.Sound)
    (hplant : ∀ {d d₁}, P d → S.Plant d d₁ → P d₁) (hannotated : ∀ {d d₁}, P d → Annotated d d₁ → P d₁)
    (hP : P d) : P d₁ := by
  suffices H : d₁.Sound ∧ P d₁ from H.2
  induction h with
  | refl => exact ⟨hd, hP⟩
  | tail _ hstroke ih =>
    obtain ⟨hsound, hP⟩ := ih
    exact ⟨hstroke.sound hsound, (hstroke.plant_or_annotated hsound).elim (hplant hP) (hannotated hP)⟩

/-! ## Bringing copies -/

/-- Copies are marked as such. -/
theorem Stage.Brings.marks (h : S.Brings d style s b) :
    style.byUses = true ∨ style.augmenting = true := by
  cases h with
  | body => exact .inl rfl
  | inner => exact .inr rfl
  | top => exact .inr rfl

theorem Stage.Brings.keeps (h : S.Brings d style s b) (hd : d.Sound) (hs : d.HasSite s)
    (hk : d.Keeps d₁) : S.Brings d₁ style s b := by
  cases h with
  | body ht hg => exact .body ht hg
  | inner ht ha hn => exact .inner ht ha ((hk.under_iff hd hs).2 hn)
  | top ht hn => exact .top ht ((hk.under_iff hd hs).2 hn)

/-- The body of an augmentation is brought by a uses with the augmentation inside, or by its task. -/
theorem Stage.Brings.augment_cases (h : S.Brings d style s (.augment a)) :
    (∃ t ∈ S.uses, a ∈ (S.draft.usesOf t.uses).augmentations) ∨
      ∃ t ∈ S.augments, t.augment = a := by
  generalize hb : Owner.augment a = b at h
  cases h with
  | body => cases hb
  | inner ht ha => exact .inl ⟨_, ht, Owner.augment.inj hb ▸ ha⟩
  | top ht => exact .inr ⟨_, ht, (Owner.augment.inj hb).symm⟩

/-- The nodes in a body are there. -/
theorem Draft.Sound.lt_of_inside (hd : d.Sound) {o : NodeId}
    (h : d.Inside (.site b.site) (.site (.node o))) : o.index < d.nodes.size := by
  rcases ReflTransGen.cases_tail h with heq | ⟨x, -, hx⟩
  · exact absurd (Item.site.inj heq).symm (b.site_ne_node o)
  · exact hd.hasItem_of_contains hx

/-! ## The strokes of an attempt -/

namespace Draft

/-- What strokes have made of a draft, at and below a site. -/
structure Stroked (S : Stage) (s : Site) (d d₁ : Draft) : Prop extends Changes s d d₁ where
  strokes : S.Strokes d d₁

theorem Stroked.refl (hd : d.Sound) : Stroked S s d d :=
  ⟨(Quiet.refl hd).toChanges, .refl⟩

theorem Stroked.trans (hd : d.Sound) (h : Stroked S s d d₁) (h' : Stroked S s d₁ d₂) :
    Stroked S s d d₂ :=
  ⟨h.toChanges.trans hd h'.toChanges, h.strokes.trans h'.strokes⟩

theorem Stroked.widen {x : Site} (h : Stroked S x d d₁) (hx : d.Under x s) : Stroked S s d d₁ :=
  ⟨h.toChanges.widen hx, h.strokes⟩

/-- What copying has made of a draft, at and below a site. -/
structure Stocked (S : Stage) (s : Site) (d d₁ : Draft) : Prop extends Changes s d d₁ where
  plants : S.Plants d d₁

theorem Stocked.refl (hd : d.Sound) : Stocked S s d d :=
  ⟨(Quiet.refl hd).toChanges, .refl⟩

theorem Stocked.trans (hd : d.Sound) (h : Stocked S s d d₁) (h' : Stocked S s d₁ d₂) :
    Stocked S s d d₂ :=
  ⟨h.toChanges.trans hd h'.toChanges, h.plants.trans h'.plants⟩

theorem Stocked.stroked (h : Stocked S s d d₁) : Stroked S s d d₁ := ⟨h.toChanges, h.plants.strokes⟩

theorem ends_graft_stocked (hd : d.Sound) (hs : d.HasSite s) (hb : S.Brings d style s b)
    (body : List NodeId) (hbody : ∀ o ∈ body, o ∈ d.childrenOf b.site) :
    Ends (body.forM fun c => do discard <| attach s (← copyNode style c)) d
      (fun _ d' => Stocked S s d d' ∧ ∀ t, d.HasSite t → d'.usesAt t = d.usesAt t)
      fun _ _ => True := by
  refine ends_forM (I := fun _ d' => Stocked S s d d' ∧ ∀ t, d.HasSite t → d'.usesAt t = d.usesAt t)
    body ⟨.refl hd, fun _ _ => rfl⟩ ?_
  rintro pre o post d₁ hl ⟨h, huses⟩
  have ho := hbody o (by rw [hl]; simp)
  have hk := h.keeps
  have hs₁ := hk.hasSite hs
  have ho₁ : o ∈ d₁.childrenOf b.site := (hk.children _ (hasSite_of_mem_childrenOf ho)).subset ho
  refine (ends_copyTo h.sound hs₁ (h.sound.child_lt ho₁)).mono ?_ fun _ _ _ => trivial
  rintro _ d₃ ⟨c, r, d₂, hcopied⟩
  have himplanted := hcopied.implanted (P := d₁.Inside (.site b.site)) h.sound hs₁
    fun y hy => .head (contains_site.2 (.inl ⟨o, ho₁, rfl⟩)) hy
  refine ⟨⟨h.toChanges.trans hd (hcopied.changes h.sound hs₁), h.plants.tail
    ⟨_, _, _, h.sound, hb.keeps hd hs hk, hs₁, himplanted⟩⟩, fun t ht => ?_⟩
  rw [hcopied.attached.usesAt, hcopied.grows.extends_.usesAt (hk.hasSite ht), huses t ht]

theorem ends_copyUsesTo_stocked (hd : d.Sound) (hs : d.HasSite s) (hb : S.Brings d style s b)
    (l : List UsesId) (hl : ∀ u ∈ l, u ∈ d.usesAt b.site) :
    Ends (l.forM fun u => do pushUses s (← copyUses style u)) d (fun _ d' => Stocked S s d d')
      fun _ _ => True := by
  refine (ends_forM (I := fun _ d' => Stocked S s d d' ∧ UsesPut s d d') l ⟨.refl hd, .refl hd⟩
    ?_).mono (fun _ _ h => h.1) fun _ _ h => h
  rintro pre u post d₁ hpre ⟨h, hput⟩
  have hu := hl u (by rw [hpre]; simp)
  have hs₁ := h.keeps.hasSite hs
  have hu₁ : u ∈ d₁.usesAt b.site := by
    by_cases hbs : b.site = s
    · rw [hbs] at hu ⊢
      exact hput.uses_self.subset hu
    · rw [hput.uses_of_ne _ (hasSite_of_mem_usesAt hu) hbs]
      exact hu
  rw [ends_bind]
  refine (ends_copyUses h.sound (h.sound.uses_lt _ u hu₁)).mono ?_ fun _ _ hE => hE.elim
  rintro v d₂ ⟨hg, hv, hlt⟩
  rw [ends_pushUses hg.sound.unfrozen]
  have hput₂ := usesPut_pushedUses hs₁ hg hv hlt
  have himplanted := hg.implanted (P := d₁.Inside (.site b.site)) hs₁
    (fun y hy => .head (contains_site.2 (.inr ⟨u, hu₁, rfl⟩)) hy) hv hlt
  exact ⟨⟨h.toChanges.trans hd hput₂.toChanges, h.plants.tail
    ⟨_, _, _, h.sound, hb.keeps hd hs h.keeps, hs₁, himplanted⟩⟩, hput.trans hd hput₂⟩

/-- A merge copies the body, and at last the target takes note of the augmentation. -/
theorem ends_merge_stocked (hd : d.Sound) (hn : n.index < d.nodes.size)
    (hb : S.Brings d { augmenting := true } (.node n) (.augment a)) :
    Ends (merge a n) d (fun _ d' => ∃ d₁ unknown, Stocked S (.node n) d d₁ ∧
      d' = d₁.mapNode n (noteMerged a unknown)) fun _ _ => True := by
  refine ends_merge_of (fun _ => trivial) (fun _ _ _ => trivial) fun _ _ => ?_
  unfold mergeBody
  have hs : d.HasSite (.node n) := hn
  rw [ends_bind]
  refine (ends_graft_stocked hd hs hb _ fun _ h => h).mono ?_ fun _ _ _ => trivial
  rintro - d₁ ⟨h₁, huses⟩
  rw [ends_bind]
  refine (ends_copyUsesTo_stocked h₁.sound (h₁.keeps.hasSite hs) (hb.keeps hd hs h₁.keeps) _
    fun u hu => ?_).mono ?_ fun _ _ _ => trivial
  · rw [huses _ (hasSite_of_mem_usesAt (s := (Owner.augment a).site) hu)]
    exact hu
  rintro - d₂ h₂
  rw [ends_editNode h₂.sound.unfrozen]
  exact ⟨d₂, _, h₁.trans hd h₂, rfl⟩

theorem ends_merge_strokes (hd : d.Sound) (hn : n.index < d.nodes.size)
    (hb : S.Brings d { augmenting := true } (.node n) (.augment a)) :
    Ends (merge a n) d (fun _ d' => Stroked S (.node n) d d') fun _ _ => True := by
  refine (ends_merge_stocked hd hn hb).mono ?_ fun _ _ _ => trivial
  rintro - d' ⟨d₁, unknown, h₁, rfl⟩
  exact ⟨h₁.toChanges.trans hd ((harmless_noteMerged a unknown).mapNode h₁.sound n).toChanges,
    h₁.plants.strokes.tail (.note h₁.sound (hb.keeps hd hn h₁.keeps) unknown)⟩

theorem ends_mergeAll_strokes {t : UsesTask} (ht : t ∈ S.uses) (hd : d.Sound) (l : List AugmentId)
    (hl : ∀ a ∈ l, a ∈ (S.draft.usesOf t.uses).augmentations) :
    Ends (l.forM (mergeBelow t.site)) d (fun _ d' => Stroked S t.site d d') fun _ _ => True := by
  refine ends_forM (I := fun _ d' => Stroked S t.site d d') l (.refl hd) ?_
  rintro pre a post d₁ hpre h
  refine ends_mergeBelow_of (fun _ => trivial) fun n hn => ?_
  have hunder := findDescendant_under h.sound hn
  refine (ends_merge_strokes h.sound (findDescendant_lt h.sound hn)
    (.inner ht (hl a (by rw [hpre]; simp)) hunder)).mono ?_ fun _ _ _ => trivial
  exact fun _ d' h' => h.trans hd (h'.widen hunder)

theorem ends_refines_strokes (hd : d.Sound) (l : List RefineTask) (s : Site) :
    Ends (l.forM fun r => located r.trace (r.run s)) d (fun _ d' => Stroked S s d d')
      fun _ _ => True := by
  refine ends_forM (I := fun _ d' => Stroked S s d d') l (.refl hd) ?_
  rintro pre r post d₁ - h
  rw [ends_located]
  refine (ends_refine h.sound r s).mono ?_ fun _ _ _ => trivial
  rintro - d₂ ⟨n, hn, rfl⟩
  have hch := ((harmless_refinement r.refinement).mapNode h.sound n).toChanges
  exact ⟨h.toChanges.trans hd (hch.widen (findDescendant_under h.sound hn)),
    h.strokes.tail (.refine n r.refinement)⟩

end Draft

theorem UsesTask.ends_attempt_strokes {t : UsesTask} (ht : t ∈ S.uses) (hd : S.draft.Follows d)
    (hstands : t.Stands S.draft) (busy : List Owner) :
    Ends (t.attempt busy) d (fun _ d' => S.Strokes d d') fun _ _ => True := by
  have hs : d.HasSite t.site := hd.keeps.hasSite hstands.site
  refine ends_attempt_of (fun _ => .refl) (fun _ _ _ _ _ _ _ => trivial) fun g hres _ _ => ?_
  unfold UsesTask.expand
  rw [ends_bind, ends_editUses hd.sound.unfrozen]
  have h₁ : Stroked S t.site d (d.marked t.uses (d.grouping g).facts.path) :=
    ⟨(quiet_marked hd.sound t.site t.uses _).toChanges, .single (.mark _ _)⟩
  have hb : S.Brings d t.style t.site (.grouping g) := .body ht (hd.resolve t ▸ hres)
  unfold copyBody
  rw [ends_bind, ends_bind]
  refine (ends_graft_stocked h₁.sound (h₁.keeps.hasSite hs) (hb.keeps hd.sound hs h₁.keeps) _
    fun _ h => h).mono ?_ fun _ _ _ => trivial
  rintro - d₂ ⟨h₂, huses⟩
  have h₁₂ := h₁.trans hd.sound h₂.stroked
  refine (ends_copyUsesTo_stocked h₂.sound (h₁₂.keeps.hasSite hs) (hb.keeps hd.sound hs h₁₂.keeps) _
    fun u hu => ?_).mono ?_ fun _ _ _ => trivial
  · rw [huses _ (h₁.keeps.hasSite (hasSite_of_mem_usesAt (s := (Owner.grouping g).site) hu))]
    exact hu
  rintro - d₃ h₃
  have h₁₃ := h₁₂.trans hd.sound h₃.stroked
  rw [ends_bind]
  refine (ends_refines_strokes (S := S) h₃.sound t.refines t.site).mono ?_ fun _ _ _ => trivial
  rintro - d₄ h₄
  have h₁₄ := h₁₃.trans hd.sound h₄
  refine (ends_mergeAll_strokes ht h₄.sound _ fun a ha => ?_).mono ?_ fun _ _ _ => trivial
  · rw [← hd.augmentations t.uses hstands.uses]
    exact ha
  · exact fun _ d₅ h₅ => (h₁₄.trans hd.sound h₅).strokes

/-- An augmentation is merged by copying its body, and then its target takes note of it. -/
theorem AugmentTask.ends_attempt_stocked {t : AugmentTask} (ht : t ∈ S.augments) (hd : d.Sound) :
    Ends t.attempt d (fun p d' => p = .applied → ∃ n d₁ unknown, d.findDataNode t.target = some n ∧
      Stocked S (.node n) d d₁ ∧ d' = d₁.mapNode n (noteMerged t.augment unknown)) fun _ _ => True := by
  refine ends_attempt_of (fun _ h => (by cases h)) fun n hn => ?_
  obtain ⟨m, hunder⟩ := findDataNode_under hd hn
  refine (ends_merge_stocked hd (findDataNode_lt hd hn) (.top ht hunder)).mono ?_ fun _ _ _ => trivial
  rintro - d' ⟨d₁, unknown, h₁, rfl⟩ -
  exact ⟨n, d₁, unknown, hn, h₁, rfl⟩

theorem AugmentTask.ends_attempt_strokes {t : AugmentTask} (ht : t ∈ S.augments) (hd : d.Sound) :
    Ends t.attempt d (fun _ d' => S.Strokes d d') fun _ _ => True := by
  refine ends_attempt_of (fun _ => .refl) fun n hn => ?_
  obtain ⟨m, hunder⟩ := findDataNode_under hd hn
  exact (ends_merge_strokes hd (findDataNode_lt hd hn) (.top ht hunder)).mono (fun _ _ h => h.strokes)
    fun _ _ _ => trivial

/-- The task of the move waits in the stage. -/
def Stage.Allows (S : Stage) : Move → Prop
  | .expand t => t ∈ S.uses
  | .merge t => t ∈ S.augments

/-- A step is a sequence of strokes of any stage in which its task waits. -/
theorem Step.strokes {S₁ S₂ : Stage} {m : Move} (h₁ : S₁.From S.draft) (hm : S.Allows m)
    (h : Step S₁ m S₂) : S.Strokes S₁.draft S₂.draft := by
  cases h with
  | @expand pre post augments d d' t h =>
    have ht : t ∈ pre ++ t :: post := by simp
    exact (UsesTask.ends_attempt_strokes hm h₁.follows (h₁.stands t ht) _).of_ok h
  | @merge uses pre post d d' t _ _ h =>
    exact (AugmentTask.ends_attempt_strokes hm h₁.follows.sound).of_ok h

theorem Run.strokes_of {S₁ S' : Stage} {ms : List Move} (h₁ : S₁.From S.draft)
    (hms : ∀ m ∈ ms, S.Allows m) (h : Run S₁ ms S') : S.Strokes S₁.draft S'.draft := by
  induction h with
  | nil => exact .refl
  | cons hstep _ ih =>
    obtain ⟨hm, hms⟩ := List.forall_mem_cons.1 hms
    exact (hstep.strokes h₁ hm).trans (ih (hstep.from h₁) hms)

/-- A run carries out tasks that wait from its start on. -/
theorem Run.allows {S' : Stage} {ms : List Move} (h : Run S ms S') : ∀ m ∈ ms, S.Allows m := by
  induction h with
  | nil => exact fun _ hm => by cases hm
  | @cons S S₁ S' m ms hstep _ ih =>
    refine List.forall_mem_cons.2 ⟨?_, fun m' hm' => ?_⟩
    · cases hstep with
      | @expand pre post _ _ _ t => exact List.mem_append_right pre List.mem_cons_self
      | @merge _ pre post _ _ t => exact List.mem_append_right pre List.mem_cons_self
    · have hlater := ih m' hm'
      cases m' with
      | expand t => exact hstep.uses_subset hlater
      | merge t => exact hstep.augments_subset hlater

/-- A run is a sequence of strokes. -/
theorem Run.strokes {S' : Stage} {ms : List Move} (hS : S.From S.draft) (h : Run S ms S') :
    S.Strokes S.draft S'.draft :=
  h.strokes_of hS h.allows

end YangSchema
