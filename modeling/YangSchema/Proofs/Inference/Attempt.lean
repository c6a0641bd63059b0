import YangSchema.Proofs.Inference.Refining

/-!
# What an attempt does

An attempt to carry out a task either finds that the task has to wait, and then changes nothing, or
it carries the task out, or it fails.  Carrying out a task means grafts: the body of the grouping at
the place of the uses, and the body of every augmentation at its target (`Expanded`, `Merged`).  An
attempt that fails has stayed at and below the place of the task, too, and its fault is none that the
inference reports of itself (`Fault.OfAttempt`).
-/

namespace YangSchema

/-- Where the nodes of a body hang. -/
def Owner.site : Owner → Site
  | .grouping g => .grouping g
  | .augment a => .augment a

theorem Owner.site_ne_node (b : Owner) (i : NodeId) : b.site ≠ .node i := by
  cases b <;> simp [Owner.site]

theorem Owner.site_ne_module (b : Owner) (m : ModuleId) : b.site ≠ .module m := by
  cases b <;> simp [Owner.site]

namespace Draft

open Edit

variable {d d₁ d' : Draft} {s : Site} {a : AugmentId} {n : NodeId}

theorem Refusal.ofAttempt {f : Fault} (h : Refusal f) : f.OfAttempt := by
  obtain ⟨k, p, k', rfl⟩ := h
  exact .of_resolved (Cause.of_malformed _ _) (fun _ h => (by cases h)) fun _ _ h => (by cases h)

/-! ## Merging -/

/-- What an augmentation says of the node that it is merged into. -/
def noteMerged (a : AugmentId) (unknown : List UnknownStatement) (r : NodeDraft) : NodeDraft :=
  { r with
    facts := { r.facts with unknown := r.facts.unknown ++ unknown }
    augmentations := r.augmentations ++ [a] }

theorem harmless_noteMerged (a : AugmentId) (unknown : List UnknownStatement) :
    Harmless (noteMerged a unknown) :=
  ⟨fun _ => rfl, fun _ => rfl, fun _ => rfl, fun _ => rfl, fun _ => rfl, fun _ => rfl,
    fun _ => rfl, fun _ => rfl⟩

/-- The body of the augmentation `a` is merged into the node `n`. -/
structure Merged (a : AugmentId) (n : NodeId) (d d' : Draft) : Prop where
  accepts : (d.node n).kind.acceptsChildren = true
  fresh : ∀ c ∈ (d.augment a).children, d.findChild (.node n) (d.node c).name = none
  graft : ∃ d₁ d₂, Grafted { augmenting := true } (.node n) (d.augment a).children d d₁ ∧
    UsesPut (.node n) d₁ d₂ ∧ d' = d₂.mapNode n (noteMerged a (d.augment a).facts.unknown)

theorem Merged.exists_grafted (h : Merged a n d d') :
    ∃ d₁, Grafted { augmenting := true } (.node n) (d.augment a).children d d₁ ∧
      Quiet (.node n) d₁ d' := by
  obtain ⟨d₁, d₂, hg, hq, rfl⟩ := h.graft
  exact ⟨d₁, hg, hq.toQuiet.trans hg.changes.sound ((harmless_noteMerged a _).mapNode hq.sound n)⟩

theorem Merged.changes (hd : d.Sound) (h : Merged a n d d') : Changes (.node n) d d' := by
  obtain ⟨d₁, hg, hq⟩ := h.exists_grafted
  exact hg.changes.trans hd hq.toChanges

theorem findClash_eq_none (rename : QName → QName) {body : List NodeId}
    (h : d.findClash s rename body = none) :
    ∀ c ∈ body, d.findChild s (rename (d.node c).name) = none := by
  intro c hc
  unfold findClash at h
  have := List.find?_eq_none.1 h (rename (d.node c).name) (List.mem_map.2 ⟨c, hc, rfl⟩)
  simpa using this

/-- What a merge does with the body, once the target takes it. -/
def mergeBody (a : AugmentId) (body : AugmentDraft) (n : NodeId) : Edit Unit := do
  body.children.forM fun c => do
    discard <| attach (.node n) (← copyNode { augmenting := true } c)
  body.uses.forM fun u => do
    pushUses (.node n) (← copyUses { augmenting := true } u)
  editNode n (noteMerged a body.facts.unknown)

/-- The rule for a merge: the target may be of a kind that takes no body, or have a child of a name in
the body. -/
theorem ends_merge_of {Q : Unit → Draft → Prop} {E : Fault → Draft → Prop}
    (hkind : (d.node n).kind.acceptsChildren = false →
      E ⟨.invalidAugmentTarget (d.node n).path.render (d.node n).kind.keyword, none⟩ d)
    (hclash : ∀ q, (d.node n).kind.acceptsChildren = true →
      d.findClash (.node n) id (d.augment a).children = some q →
      E ⟨.augmentationConflict (d.node n).path.render q.localName, none⟩ d)
    (hbody : (d.node n).kind.acceptsChildren = true →
      d.findClash (.node n) id (d.augment a).children = none →
      Ends (mergeBody a (d.augment a) n) d Q E) :
    Ends (merge a n) d Q E := by
  unfold merge
  rw [ends_bind, ends_get]
  dsimp only
  cases hacc : (d.node n).kind.acceptsChildren with
  | false => exact hkind hacc
  | true =>
    cases hq : d.findClash (.node n) id (d.augment a).children with
    | some q => exact hclash q hacc hq
    | none => exact hbody hacc hq

theorem ends_merge (hd : d.Sound) (hn : n.index < d.nodes.size) :
    Ends (merge a n) d (fun _ d' => Merged a n d d') fun f d' =>
      Changes (.node n) d d' ∧ f.OfAttempt := by
  have hrefl : Changes (.node n) d d := (Quiet.refl hd).toChanges
  refine ends_merge_of (fun _ => ⟨hrefl, ?_⟩) (fun _ _ _ => ⟨hrefl, ?_⟩) fun hacc hfree => ?_
  · exact .of_resolved (List.mem_singleton_self _) (fun _ h => (by cases h)) fun _ _ h => (by cases h)
  · exact .of_resolved (List.mem_singleton_self _) (fun _ h => (by cases h)) fun _ _ h => (by cases h)
  unfold mergeBody
  have hs : d.HasSite (.node n) := hn
  rw [ends_bind]
  refine (ends_graft hd hs _ fun x hx => hd.child_lt (s := .augment a) hx).mono ?_
    fun f d' h => ⟨h.1, h.2.ofAttempt⟩
  rintro - d₁ hg
  have hd₁ := hg.changes.sound
  have hn₁ := hg.changes.keeps.hasSite hs
  rw [ends_bind]
  refine (ends_copyUsesTo hd₁ hn₁ _ fun u hu => ?_).mono ?_ fun _ _ hE => hE.elim
  · exact Nat.lt_of_lt_of_le (hd.uses_lt (.augment a) u hu) hg.changes.keeps.uses_le
  rintro - d₂ hq
  rw [ends_editNode hq.sound.unfrozen]
  exact ⟨hacc, findClash_eq_none id hfree, d₁, d₂, hg, hq, rfl⟩

/-- The rule for a merge below a site. -/
theorem ends_mergeBelow_of {Q : Unit → Draft → Prop} {E : Fault → Draft → Prop}
    (hnone : d.findDescendant s (d.augment a).facts.target.steps = none →
      E (.unresolved "augment target" (d.augment a).facts.target.render) d)
    (hmerge : ∀ n, d.findDescendant s (d.augment a).facts.target.steps = some n →
      Ends (merge a n) d Q E) :
    Ends (mergeBelow s a) d Q E := by
  unfold mergeBelow
  rw [ends_bind, ends_get]
  dsimp only
  cases hn : d.findDescendant s (d.augment a).facts.target.steps with
  | none => exact hnone hn
  | some n => exact hmerge n hn

/-- A target that cannot be taken for the target of a module-level augmentation. -/
def Relative (p : SchemaPath) : Prop := ∀ q : SchemaPath, q.absolute = true → p.render ≠ q.render

theorem ends_mergeBelow (hd : d.Sound) (hrel : Relative (d.augment a).facts.target) :
    Ends (mergeBelow s a) d (fun _ d' => ∃ n,
        d.findDescendant s (d.augment a).facts.target.steps = some n ∧ Merged a n d d')
      fun f d' => Changes s d d' ∧ f.OfAttempt := by
  refine ends_mergeBelow_of (fun _ => ?_) fun n hn => ?_
  · refine ⟨(Quiet.refl hd).toChanges, Cause.unresolved_of_effectiveModel _ _, fun _ h => (by cases h),
      fun _ h => ?_, fun q hq h => hrel q hq (Cause.unresolved.inj h).2⟩
    exact absurd (Cause.unresolved.inj h).1 (by decide)
  · refine (ends_merge hd (findDescendant_lt hd hn)).mono (fun _ d' h => ⟨n, hn, h⟩) ?_
    rintro f d' ⟨h, hf⟩
    exact ⟨h.widen (findDescendant_under hd hn), hf⟩

/-- The augmentations of a list are merged below a site, one after the other. -/
inductive MergedAll (s : Site) : List AugmentId → Draft → Draft → Prop
  | nil {d : Draft} : MergedAll s [] d d
  | cons {a : AugmentId} {l : List AugmentId} {n : NodeId} {d d₁ d₂ : Draft}
    (hn : d.findDescendant s (d.augment a).facts.target.steps = some n) (h : Merged a n d d₁)
    (hl : MergedAll s l d₁ d₂) : MergedAll s (a :: l) d d₂

theorem MergedAll.snoc {l : List AugmentId} {d₂ : Draft} (h : MergedAll s l d d₁)
    (hn : d₁.findDescendant s (d₁.augment a).facts.target.steps = some n) (h' : Merged a n d₁ d₂) :
    MergedAll s (l ++ [a]) d d₂ := by
  induction h with
  | nil => exact .cons hn h' .nil
  | cons hn' h'' _ ih => exact .cons hn' h'' (ih hn h')

theorem MergedAll.changes {l : List AugmentId} (hd : d.Sound) (h : MergedAll s l d d') :
    Changes s d d' := by
  induction h with
  | nil => exact (Quiet.refl hd).toChanges
  | cons hn h _ ih =>
    have hch := (h.changes hd).widen (findDescendant_under hd hn)
    exact hch.trans hd (ih hch.sound)

theorem ends_mergeAll (hd : d.Sound) (l : List AugmentId)
    (hl : ∀ a ∈ l, a.index < d.augments.size ∧ Relative (d.augment a).facts.target) :
    Ends (l.forM (mergeBelow s)) d (fun _ d' => MergedAll s l d d') fun f d' =>
      Changes s d d' ∧ f.OfAttempt := by
  refine ends_forM (I := fun pre d' => MergedAll s pre d d') l .nil ?_
  intro pre a post d₁ hpre h
  obtain ⟨ha, hrel⟩ := hl a (by rw [hpre]; simp)
  have hch := h.changes hd
  refine (ends_mergeBelow hch.sound (by rw [hch.keeps.target a ha]; exact hrel)).mono ?_ ?_
  · rintro - d₂ ⟨n, hn, hm⟩
    exact h.snoc hn hm
  · rintro f d₂ ⟨h', hf⟩
    exact ⟨hch.trans hd h', hf⟩

end Draft

open Draft Edit

variable {d d' : Draft}

/-! ## Expanding -/

/-- How the body of a grouping is copied by an expansion. -/
def UsesTask.style (t : UsesTask) : CopyStyle := { bindTo := some t.home, byUses := true }

/-- What a uses needs of the draft: its place is there, and so are its augmentations. -/
structure UsesTask.Fits (t : UsesTask) (d : Draft) : Prop where
  site : d.HasSite t.site
  uses : t.uses.index < d.uses.size
  relative : ∀ a ∈ (d.usesOf t.uses).augmentations, Relative (d.augment a).facts.target

/-- The uses says where its grouping is. -/
def Draft.marked (d : Draft) (u : UsesId) (p : SchemaPath) : Draft :=
  d.mapUses u fun r => { r with facts := { r.facts with grouping := p } }

theorem Draft.quiet_marked (hd : d.Sound) (s : Site) (u : UsesId) (p : SchemaPath) :
    Quiet s d (d.marked u p) := by
  refine quiet_mapUses ?_ hd u
  exact fun _ => rfl

/-- The uses is expanded by the body of the grouping `g`: it is marked, the body is copied, the copies
are refined, and the augmentations inside are merged. -/
structure UsesTask.Expanded (t : UsesTask) (g : GroupingId) (d d' : Draft) : Prop where
  resolve : t.resolve d = some g
  fresh : ∀ c ∈ (d.grouping g).children, d.findChild t.site ((d.node c).name.bindTo t.home) = none
  graft : ∃ d₁ d₂ d₃, Grafted t.style t.site (d.grouping g).children
      (d.marked t.uses (d.grouping g).facts.path) d₁ ∧
    UsesPut t.site d₁ d₂ ∧ Refined t.site t.refines d₂ d₃ ∧
    MergedAll t.site (d.usesOf t.uses).augmentations d₃ d'

theorem UsesTask.Expanded.exists_grafted {t : UsesTask} {g : GroupingId} (hd : d.Sound)
    (h : t.Expanded g d d') :
    ∃ d₁ d₂ d₃, Quiet t.site d d₁ ∧ Grafted t.style t.site (d.grouping g).children d₁ d₂ ∧
      Quiet t.site d₂ d₃ ∧ MergedAll t.site (d.usesOf t.uses).augmentations d₃ d' := by
  obtain ⟨d₁, d₂, d₃, hg, hu, hr, hm⟩ := h.graft
  exact ⟨_, d₁, d₃, quiet_marked hd _ _ _, hg, hu.toQuiet.trans hg.changes.sound hr.toQuiet, hm⟩

/-- Whether the uses has to wait for one of the bodies in `busy`. -/
def UsesTask.Waits (t : UsesTask) (busy : List Owner) (d : Draft) : Prop :=
  ∀ g, t.resolve d = some g → .grouping g ∈ busy ∨
    ∃ a ∈ (d.usesOf t.uses).augmentations, Owner.augment a ∈ busy

theorem UsesTask.Expanded.changes {t : UsesTask} {g : GroupingId} (hd : d.Sound)
    (h : t.Expanded g d d') : Changes t.site d d' := by
  obtain ⟨d₁, d₂, d₃, h₁, h₂, h₃, h₄⟩ := h.exists_grafted hd
  have h₁₂ := h₁.toChanges.trans hd h₂.changes
  have h₁₃ := h₁₂.trans hd h₃.toChanges
  exact h₁₃.trans hd (h₄.changes h₃.sound)

/-- An attempt at a uses that waits comes to the test for what is busy. -/
theorem UsesTask.waits_iff {t : UsesTask} {g : GroupingId} (hg : t.resolve d = some g)
    {busy : List Owner} :
    t.Waits busy d ↔ (busy.contains (.grouping g) ||
      (d.usesOf t.uses).augmentations.any fun a => busy.contains (.augment a)) = true := by
  rw [Bool.or_eq_true, List.any_eq_true]
  simp only [List.contains_iff_mem]
  constructor
  · exact fun h => h g hg
  · intro h g' hg'
    obtain rfl := Option.some.inj (hg.symm.trans hg')
    exact h

/-- What an attempt does with the body of the grouping and the augmentations inside, once nothing holds
it up. -/
def UsesTask.expand (t : UsesTask) (body : GroupingDraft) (inner : List AugmentId) : Edit Unit := do
  Draft.editUses t.uses fun r => { r with facts := { r.facts with grouping := body.facts.path } }
  Draft.copyBody t.style body t.site
  t.refines.forM fun r => located r.trace (r.run t.site)
  inner.forM (Draft.mergeBelow t.site)

/-- The rule for an attempt to expand a uses: it is put off, refused because a name is taken, or begun. -/
theorem UsesTask.ends_attempt_of {t : UsesTask} {busy : List Owner}
    {P : Progress → Draft → Prop} {E : Fault → Draft → Prop}
    (hblocked : t.Waits busy d → P .blocked d)
    (hclash : ∀ g q name place, t.resolve d = some g → ¬ t.Waits busy d →
      d.findClash t.site (QName.bindTo t.home) (d.grouping g).children = some q →
      E (.malformed (.alreadyDefined q.localName name place)) d)
    (hexpand : ∀ g, t.resolve d = some g → ¬ t.Waits busy d →
      d.findClash t.site (QName.bindTo t.home) (d.grouping g).children = none →
      Ends (t.expand (d.grouping g) (d.usesOf t.uses).augmentations) d
        (fun _ d' => P .applied d') E) :
    Ends (t.attempt busy) d P E := by
  unfold UsesTask.attempt
  rw [ends_bind, ends_get]
  cases hres : t.resolve d with
  | none =>
    refine hblocked fun g hg => ?_
    rw [hres] at hg
    cases hg
  | some g =>
    dsimp only
    split
    · next h => exact hblocked ((waits_iff hres).2 h)
    next h =>
    have hgoes : ¬ t.Waits busy d := fun h' => h ((waits_iff hres).1 h')
    cases hq : d.findClash t.site (QName.bindTo t.home) (d.grouping g).children with
    | some q => exact hclash g q _ _ hres hgoes hq
    | none =>
      have hends := hexpand g hres hgoes hq
      simp only [UsesTask.expand, ends_bind] at hends ⊢
      exact hends

/-- Expanding a uses. -/
theorem UsesTask.ends_expand {t : UsesTask} {g : GroupingId} (hd : d.Sound) (ht : t.Fits d)
    (hres : t.resolve d = some g)
    (hfree : d.findClash t.site (QName.bindTo t.home) (d.grouping g).children = none) :
    Ends (t.expand (d.grouping g) (d.usesOf t.uses).augmentations) d (fun _ d' => t.Expanded g d d')
      fun f d' => Changes t.site d d' ∧ f.OfAttempt := by
  unfold UsesTask.expand
  rw [ends_bind, ends_editUses hd.unfrozen]
  -- the uses is marked
  have h₁ := quiet_marked hd t.site t.uses (d.grouping g).facts.path
  generalize hd₁ : d.marked t.uses (d.grouping g).facts.path = d₁ at h₁
  rw [show d.mapUses t.uses _ = d₁ from hd₁]
  have hfail : ∀ {d₂ d₃ f}, Changes t.site d d₂ → Changes t.site d₂ d₃ ∧ Fault.OfAttempt f →
      Changes t.site d d₃ ∧ f.OfAttempt := fun h h' => ⟨h.trans hd h'.1, h'.2⟩
  -- the body is copied
  unfold copyBody
  rw [ends_bind, ends_bind]
  refine (ends_graft h₁.sound (h₁.keeps.hasSite ht.site) _ fun x hx => ?_).mono ?_
    fun f d₂ h => hfail h₁.toChanges ⟨h.1, h.2.ofAttempt⟩
  · exact Nat.lt_of_lt_of_le (hd.child_lt (s := .grouping g) hx) h₁.keeps.nodes_le
  rintro - d₂ h₂
  have hch₂ := h₁.toChanges.trans hd h₂.changes
  refine (ends_copyUsesTo h₂.changes.sound (hch₂.keeps.hasSite ht.site) _ fun u hu => ?_).mono ?_
    fun _ _ hE => hE.elim
  · exact Nat.lt_of_lt_of_le (hd.uses_lt (.grouping g) u hu) hch₂.keeps.uses_le
  rintro - d₃ h₃
  have hch₃ := hch₂.trans hd h₃.toChanges
  -- the refines
  rw [ends_bind]
  refine (ends_refines h₃.sound t.refines t.site).mono ?_ fun f d' h => hfail hch₃ h
  rintro - d₄ h₄
  have hch₄ := hch₃.trans hd h₄.toChanges
  -- the augmentations inside
  refine (ends_mergeAll h₄.sound _ fun a ha => ?_).mono ?_ fun f d' h => hfail hch₄ h
  · have ha' := hd.augment_lt t.uses a ha
    refine ⟨Nat.lt_of_lt_of_le ha' hch₄.keeps.augments_le, ?_⟩
    rw [hch₄.keeps.target a ha']
    exact ht.relative a ha
  rintro - d₅ h₅
  exact ⟨hres, findClash_eq_none (QName.bindTo t.home) hfree, d₂, d₃, d₄, hd₁ ▸ h₂, h₃, h₄, h₅⟩

/-- An attempt to expand a uses. -/
theorem UsesTask.ends_attempt {t : UsesTask} (hd : d.Sound) (ht : t.Fits d) (busy : List Owner) :
    Ends (t.attempt busy) d
      (fun progress d' => match progress with
        | .blocked => t.Waits busy d ∧ d' = d
        | .applied => ¬ t.Waits busy d ∧ ∃ g, t.Expanded g d d')
      fun f d' => ¬ t.Waits busy d ∧ Changes t.site d d' ∧ f.OfAttempt := by
  refine ends_attempt_of (fun hwaits => ⟨hwaits, rfl⟩) (fun g q name place _ hgoes _ => ?_) ?_
  · exact ⟨hgoes, (Quiet.refl hd).toChanges,
      .of_resolved (Cause.of_malformed _ _) (fun _ h => (by cases h)) fun _ _ h => (by cases h)⟩
  · exact fun g hres hgoes hfree => (ends_expand hd ht hres hfree).mono
      (fun _ _ h => ⟨hgoes, g, h⟩) fun _ _ h => ⟨hgoes, h⟩

/-! ## Merging at the top -/

theorem Draft.findDataNode_eq_some {p : SchemaPath} {n : NodeId} :
    d.findDataNode p = some n ↔ ∃ q m, p.first? = some q ∧ d.moduleOf? q.owner = some m ∧
      d.findDescendant (.module m) p.steps = some n := by
  unfold findDataNode
  simp only [Option.bind_eq_bind, Option.bind_eq_some_iff]
  constructor
  · rintro ⟨q, hq, m, hm, hn⟩
    exact ⟨q, m, hq, hm, hn⟩
  · rintro ⟨q, m, hq, hm, hn⟩
    exact ⟨q, hq, m, hm, hn⟩

theorem Draft.findDataNode_lt {p : SchemaPath} {n : NodeId} (hd : d.Sound)
    (h : d.findDataNode p = some n) : n.index < d.nodes.size := by
  obtain ⟨_, _, _, _, hdesc⟩ := findDataNode_eq_some.1 h
  exact findDescendant_lt hd hdesc

theorem Draft.findDataNode_under {p : SchemaPath} {n : NodeId} (hd : d.Sound)
    (h : d.findDataNode p = some n) : ∃ m, d.Under (.node n) (.module m) := by
  obtain ⟨_, m, _, _, hdesc⟩ := findDataNode_eq_some.1 h
  exact ⟨m, findDescendant_under hd hdesc⟩

/-- The rule for an attempt to merge a module-level augmentation: it is put off until its target is
there. -/
theorem AugmentTask.ends_attempt_of {t : AugmentTask} {P : Progress → Draft → Prop}
    {E : Fault → Draft → Prop} (hblocked : d.findDataNode t.target = none → P .blocked d)
    (hmerge : ∀ n, d.findDataNode t.target = some n →
      Ends (merge t.augment n) d (fun _ d' => P .applied d') E) :
    Ends t.attempt d P E := by
  unfold AugmentTask.attempt
  rw [ends_bind, ends_get]
  cases hn : d.findDataNode t.target with
  | none => exact hblocked hn
  | some n => exact ends_bind.2 (hmerge n hn)

/-- An attempt to merge a module-level augmentation. -/
theorem AugmentTask.ends_attempt {t : AugmentTask} (hd : d.Sound) :
    Ends t.attempt d
      (fun progress d' => match progress with
        | .blocked => d.findDataNode t.target = none ∧ d' = d
        | .applied => ∃ n, d.findDataNode t.target = some n ∧ Merged t.augment n d d')
      fun f d' => ∃ n, d.findDataNode t.target = some n ∧ Changes (.node n) d d' ∧ f.OfAttempt := by
  refine ends_attempt_of (fun hnone => ⟨hnone, rfl⟩) fun n hn => ?_
  exact (ends_merge hd (findDataNode_lt hd hn)).mono (fun _ _ h => ⟨n, hn, h⟩) fun _ _ h => ⟨n, hn, h⟩

end YangSchema
