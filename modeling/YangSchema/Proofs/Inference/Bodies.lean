import YangSchema.Proofs.Inference.Stage

/-!
# Bodies that are copied are final

A uses stands in the innermost of the bodies around it (`Stage.Lexical`), and a body is copied only
when no uses that is left stands in it.  Whatever is carried out afterwards stays at and below its
own place, so it does not reach a body that was copied: `SameBody` holds for the rest of the run
(`Stage.Settled.run`).
-/

namespace YangSchema

open Draft Edit

namespace Draft

variable {d d₁ d₂ : Draft} {s : Site} {b : Owner}

/-! ## Names keep their meaning -/

theorem moduleOf?_eq (hsize : d₁.modules.size = d.modules.size)
    (hid : ∀ m, m.index < d.modules.size →
      (d₁.module m).facts.identity = (d.module m).facts.identity) (i : ModuleIdentity) :
    d₁.moduleOf? i = d.moduleOf? i := by
  have hslots : d₁.modules.slots.map (fun slot => slot.record.facts.identity) =
      d.modules.slots.map fun slot => slot.record.facts.identity := by
    apply Array.ext
    · simpa [Shelf.size] using hsize
    · intro k h₁ h₂
      rw [Array.size_map] at h₁ h₂
      have := hid ⟨k⟩ h₂
      simpa [Draft.module, Shelf.read, Array.getElem?_eq_getElem h₁, Array.getElem?_eq_getElem h₂]
        using this
  have hfind : ∀ d : Draft, d.modules.slots.findIdx? (·.record.facts.identity == i) =
      (d.modules.slots.map fun slot => slot.record.facts.identity).findIdx? (· == i) := by
    intro d
    rw [Array.findIdx?_map]
    rfl
  unfold moduleOf?
  rw [hfind, hfind, hslots]

theorem Changes.moduleOf? (h : Changes s d d₁) (i : ModuleIdentity) :
    d₁.moduleOf? i = d.moduleOf? i :=
  moduleOf?_eq h.modules_size h.keeps.identity i

theorem Changes.grouping_name (h : Changes s d d₁) (g : GroupingId) :
    (d₁.grouping g).facts.name = (d.grouping g).facts.name := by
  by_cases hg : g.index < d.groupings.size
  · exact h.keeps.grouping g hg
  · have hle := Nat.not_lt.1 hg
    rw [grouping_of_size_le hle, grouping_of_size_le (h.groupings_size ▸ hle)]

theorem Changes.resolve (h : Changes s d d₁) (t : UsesTask) : t.resolve d₁ = t.resolve d := by
  unfold UsesTask.resolve findModuleGrouping
  simp only [h.moduleOf?, h.groupings, h.grouping_name]

/-! ## Bodies that stay -/

/-- The body, with all nodes in it, is the same in both drafts. -/
structure SameBody (b : Owner) (d d₁ : Draft) : Prop where
  children : d₁.childrenOf b.site = d.childrenOf b.site
  uses : d₁.usesAt b.site = d.usesAt b.site
  nodes : ∀ i, d.Under (.node i) b.site → d₁.node i = d.node i

theorem SameBody.refl (b : Owner) (d : Draft) : SameBody b d d := ⟨rfl, rfl, fun _ _ => rfl⟩

/-- What hangs in the body still hangs there. -/
theorem SameBody.under (h : SameBody b d d₁) {x : Site} (hx : d.Under x b.site) :
    d₁.Under x b.site := by
  generalize ht : b.site = t at hx
  induction hx with
  | refl => exact .refl _
  | up hp hx ih =>
    subst ht
    refine .up ?_ (ih rfl)
    rw [h.nodes _ (.up hp hx)]
    exact hp

theorem SameBody.trans (h : SameBody b d d₁) (h' : SameBody b d₁ d₂) : SameBody b d d₂ where
  children := h'.children.trans h.children
  uses := h'.uses.trans h.uses
  nodes i hi := (h'.nodes i (h.under hi)).trans (h.nodes i hi)

/-- Changes at a site that is not in the body do not reach it. -/
theorem Changes.sameBody (h : Changes s d d₁) (hs : ¬ d.Under s b.site)
    (hb : ∀ a, b = .augment a → a.index < d.augments.size) : SameBody b d d₁ := by
  have hout : ∀ x, d.Under x b.site → ¬ d.Under x s := by
    intro x hx hxs
    rcases hx.total hxs with h | h
    · obtain rfl := h.eq_of_root b.site_ne_node
      exact hs (.refl _)
    · exact hs h
  have hsite : d.HasSite b.site ∨ ¬ d.HasSite b.site ∧ ¬ d₁.HasSite b.site := by
    cases b with
    | grouping g =>
      show g.index < _ ∨ ¬ g.index < _ ∧ ¬ g.index < _
      rw [h.groupings_size]
      omega
    | augment a => exact .inl (hb a rfl)
  refine ⟨?_, ?_, fun i hi => ?_⟩
  · rcases hsite with hsite | ⟨h₁, h₂⟩
    · exact h.childrenOf _ hsite (hout _ (.refl _))
    · rw [childrenOf_of_not_hasSite h₁, childrenOf_of_not_hasSite h₂]
  · rcases hsite with hsite | ⟨h₁, h₂⟩
    · exact h.usesAt _ hsite (hout _ (.refl _))
    · rw [usesAt_of_not_hasSite h₁, usesAt_of_not_hasSite h₂]
  · refine h.node i ?_ (hout _ hi)
    generalize ht : b.site = t at hi
    cases hi with
    | refl => exact absurd ht (b.site_ne_node i)
    | up hp _ => exact lt_of_parent hp

end Draft

/-! ## Where the tasks stand -/

/-- Tasks stand where their scopes say. -/
structure Stage.Lexical (S : Stage) : Prop extends Stage.Ready S where
  /-- A uses that hangs in a body has this body as its innermost one. -/
  owner : ∀ t ∈ S.uses, ∀ b : Owner, S.draft.Under t.site b.site → t.enclosing.getLast? = some b
  /-- The augmentations in a uses are not around it. -/
  inner : ∀ t ∈ S.uses, ∀ a ∈ (S.draft.usesOf t.uses).augmentations, .augment a ∉ t.enclosing
  /-- No uses stands in the grouping that it names. -/
  acyclic : ∀ t ∈ S.uses, ∀ g, t.resolve S.draft = some g → t.innermostGrouping ≠ some g
  augment_lt : ∀ t ∈ S.augments, t.augment.index < S.draft.augments.size

theorem Step.lexical {S S' : Stage} {m : Move} (hS : S.Lexical) (h : Step S m S') : S'.Lexical := by
  obtain ⟨s, hch⟩ := h.changes hS.toReady
  refine { toReady := h.ready hS.toReady, owner := ?_, inner := ?_, acyclic := ?_, augment_lt := ?_ }
  · intro t ht b hb
    have ht' := h.uses_subset ht
    exact hS.owner t ht' b ((hch.keeps.under_iff hS.sound (hS.fits t ht').site).1 hb)
  · intro t ht a ha
    have ht' := h.uses_subset ht
    rw [hch.augmentations t.uses (hS.fits t ht').uses] at ha
    exact hS.inner t ht' a ha
  · intro t ht g hg
    rw [hch.resolve] at hg
    exact hS.acyclic t (h.uses_subset ht) g hg
  · intro t ht
    exact Nat.lt_of_lt_of_le (hS.augment_lt t (h.augments_subset ht)) hch.keeps.augments_le

theorem Run.lexical {S S' : Stage} {ms : List Move} (hS : S.Lexical) (h : Run S ms S') :
    S'.Lexical := by
  induction h with
  | nil => exact hS
  | cons hs _ ih => exact ih (hs.lexical hS)

/-- The innermost grouping around a uses whose innermost body is a grouping. -/
theorem UsesTask.innermostGrouping_of_getLast {t : UsesTask} {g : GroupingId}
    (h : t.enclosing.getLast? = some (.grouping g)) : t.innermostGrouping = some g := by
  obtain ⟨outer, houter⟩ := List.getLast?_eq_some_iff.1 h
  exact innermostGrouping_eq_some.2 ⟨outer, [], houter, fun _ => List.not_mem_nil⟩

/-- A uses occupies the innermost body around it. -/
theorem UsesTask.mem_occupies_of_getLast {t : UsesTask} {b : Owner}
    (h : t.enclosing.getLast? = some b) : b ∈ t.occupies := by
  unfold occupies
  cases b with
  | grouping g =>
    rw [innermostGrouping_of_getLast h]
    exact List.mem_append_left _ (by simp)
  | augment a =>
    refine List.mem_append_right _ (List.mem_filter.2 ⟨List.mem_of_getLast? h, rfl⟩)

/-! ## What an attempt copies -/

/-- An attempt at the move, which is not held back, copies the body. -/
inductive Stage.Copies (S : Stage) : Move → Owner → Prop
  | grouping {pre post : List UsesTask} {t : UsesTask} {g : GroupingId}
    (ht : S.uses = pre ++ t :: post)
    (hwait : ¬ t.Waits ((pre ++ post).flatMap UsesTask.occupies) S.draft)
    (hg : t.resolve S.draft = some g) : S.Copies (.expand t) (.grouping g)
  | inner {pre post : List UsesTask} {t : UsesTask} {a : AugmentId}
    (ht : S.uses = pre ++ t :: post)
    (hwait : ¬ t.Waits ((pre ++ post).flatMap UsesTask.occupies) S.draft)
    (ha : a ∈ (S.draft.usesOf t.uses).augmentations) : S.Copies (.expand t) (.augment a)
  | top {t : AugmentTask} (ht : t ∈ S.augments) (hwait : t.isWaiting S.uses = false) :
    S.Copies (.merge t) (.augment t.augment)

/-! ## Bodies that nothing is left in -/

/-- Where an attempt makes its changes: at and below this site. -/
inductive Stage.At (S : Stage) : Move → Site → Prop
  | expand {t : UsesTask} (ht : t ∈ S.uses) : S.At (.expand t) t.site
  | merge {t : AugmentTask} {n : NodeId} {m : ModuleId}
    (h : S.draft.Under (.node n) (.module m)) : S.At (.merge t) (.node n)

theorem Stage.at_merge {S : Stage} (hS : S.Ready) {t : AugmentTask} {n : NodeId}
    (hn : S.draft.findDataNode t.target = some n) : S.At (.merge t) (.node n) := by
  obtain ⟨q, m, -, -, hdesc⟩ := findDataNode_eq_some.1 hn
  exact .merge (findDescendant_under hS.sound hdesc)

theorem Step.at {S S' : Stage} {m : Move} (hS : S.Ready) (h : Step S m S') :
    ∃ s, S.At m s ∧ Changes s S.draft S'.draft := by
  rcases h.cases hS with
    ⟨pre, t, post, g, rfl, huses, -, -, -, hg⟩ | ⟨_, t, _, n, rfl, -, -, -, -, -, hn, hm⟩
  · exact ⟨t.site, .expand (by rw [huses]; simp), hg.changes hS.sound⟩
  · exact ⟨.node n, Stage.at_merge hS hn, hm.changes hS.sound⟩

theorem Breaks.at {S : Stage} {m : Move} {f : Fault} {d' : Draft} (hS : S.Ready)
    (h : Breaks S m f d') : ∃ s, S.At m s ∧ Changes s S.draft d' := by
  cases h with
  | @expand pre post augments d d' t f h =>
    have ht : t.Fits d := hS.fits t (by simp)
    obtain ⟨-, hch, -⟩ := (UsesTask.ends_attempt hS.sound ht _).of_error h
    exact ⟨t.site, .expand (by simp), hch⟩
  | @merge uses pre post d d' t f _ _ h =>
    obtain ⟨n, hn, hch, -⟩ := (AugmentTask.ends_attempt hS.sound).of_error h
    exact ⟨.node n, Stage.at_merge hS hn, hch⟩

/-- No uses that is left stands in the body. -/
structure Stage.Settled (S : Stage) (b : Owner) : Prop where
  uses : ∀ t ∈ S.uses, ¬ S.draft.Under t.site b.site
  augment_lt : ∀ a, b = .augment a → a.index < S.draft.augments.size

namespace Stage.Settled

variable {S S' : Stage} {b : Owner} {m : Move} {d : Draft}

/-- No attempt reaches the body: a merge stays below a module. -/
theorem not_under (hb : S.Settled b) {s : Site} (h : S.At m s) : ¬ S.draft.Under s b.site := by
  cases h with
  | expand ht => exact hb.uses _ ht
  | merge h =>
    intro h'
    exact b.site_ne_module _ (h'.root_unique h b.site_ne_node fun i hi => (by cases hi))

theorem sameBody (hb : S.Settled b) {s : Site} (h : S.At m s) (hch : Changes s S.draft d) :
    SameBody b S.draft d :=
  hch.sameBody (hb.not_under h) hb.augment_lt

theorem step (hS : S.Ready) (hb : S.Settled b) (h : Step S m S') : S'.Settled b := by
  obtain ⟨s, -, hch⟩ := h.at hS
  refine ⟨fun t ht hu => ?_, fun a ha => ?_⟩
  · have ht' := h.uses_subset ht
    exact hb.uses t ht' ((hch.keeps.under_iff hS.sound (hS.fits t ht').site).1 hu)
  · exact Nat.lt_of_lt_of_le (hb.augment_lt a ha) hch.keeps.augments_le

/-- A run does not reach the body. -/
theorem run {ms : List Move} (hS : S.Ready) (hb : S.Settled b) (h : Run S ms S') :
    SameBody b S.draft S'.draft ∧ S'.Settled b := by
  induction h with
  | nil => exact ⟨.refl _ _, hb⟩
  | cons hs _ ih =>
    obtain ⟨s, hat, hch⟩ := hs.at hS
    obtain ⟨h, hb'⟩ := ih (hs.ready hS) (hb.step hS hs)
    exact ⟨(hb.sameBody hat hch).trans h, hb'⟩

/-- Nor does an attempt that fails after a run. -/
theorem fails {f : Fault} (hS : S.Ready) (hb : S.Settled b) (h : S.Fails f d) :
    SameBody b S.draft d := by
  obtain ⟨ms, S', m, f', hr, hbreaks, -⟩ := h
  obtain ⟨h, hb'⟩ := hb.run hS hr
  obtain ⟨s, hat, hch⟩ := hbreaks.at (hr.ready hS)
  exact h.trans (hb'.sameBody hat hch)

end Stage.Settled

/-- A body is copied only when nothing is left to do in it. -/
theorem Stage.Copies.settled {S : Stage} {m : Move} {b : Owner} (hS : S.Lexical)
    (h : S.Copies m b) : S.Settled b := by
  cases h with
  | @grouping pre post t g huses hwait hg =>
    refine ⟨fun u hu hunder => ?_, fun a ha => (by cases ha)⟩
    have hlast := hS.owner u hu _ hunder
    rw [huses, List.mem_append, List.mem_cons] at hu
    by_cases hut : u = t
    · subst hut
      exact hS.acyclic u (by rw [huses]; simp) g hg (UsesTask.innermostGrouping_of_getLast hlast)
    · -- another uses in the grouping would hold the expansion back
      refine hwait fun g' hg' => .inl ?_
      obtain rfl := Option.some.inj (hg'.symm.trans hg)
      refine List.mem_flatMap.2 ⟨u, ?_, UsesTask.mem_occupies_of_getLast hlast⟩
      exact List.mem_append.2 (hu.imp_right fun h => h.resolve_left hut)
  | @inner pre post t a huses hwait ha =>
    refine ⟨fun u hu hunder => ?_, fun a' ha' => ?_⟩
    · have hlast := hS.owner u hu _ hunder
      rw [huses, List.mem_append, List.mem_cons] at hu
      by_cases hut : u = t
      · subst hut
        exact hS.inner u (by rw [huses]; simp) a ha (List.mem_of_getLast? hlast)
      · refine hwait fun _ _ => .inr ⟨a, ha, ?_⟩
        refine List.mem_flatMap.2 ⟨u, ?_, UsesTask.mem_occupies_of_getLast hlast⟩
        exact List.mem_append.2 (hu.imp_right fun h => h.resolve_left hut)
    · cases ha'
      exact hS.sound.augment_lt t.uses a ha
  | @top t ht hwait =>
    refine ⟨fun u hu hunder => ?_, fun a ha => ?_⟩
    · have hmem := List.mem_of_getLast? (hS.owner u hu _ hunder)
      have : t.isWaiting S.uses = true := by
        unfold AugmentTask.isWaiting
        exact List.any_eq_true.2 ⟨u, hu, by simpa using hmem⟩
      rw [hwait] at this
      cases this
    · cases ha
      exact hS.augment_lt t ht

end YangSchema
