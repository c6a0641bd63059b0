import YangSchema.Proofs.Inference.Confluence
import YangSchema.Proofs.Inference.Queue

/-!
# The order of what was merged

Lists of children go on with new nodes only (`Draft.Appends`), and copies of what stands in an
augmentation of a module come about only while it is merged (`CopiedFrom.of_strokes`).  So if two
augmentations are merged into one node, one of them first, then what comes from this one stands before
everything that comes from the other one (`Run.apart`).
-/

namespace YangSchema

open Draft Edit Relation

variable {S : Stage} {d₀ d d₁ d₂ : Draft} {a b : AugmentId} {i o n c : NodeId}

/-! ## Lists of children go on -/

namespace Draft

/-- The lists of children of `d` go on with new nodes in `d₁`. -/
structure Appends (d d₁ : Draft) : Prop where
  nodes_le : d.nodes.size ≤ d₁.nodes.size
  hasSite : ∀ t, d.HasSite t → d₁.HasSite t
  children : ∀ t, d.HasSite t →
    ∃ news, d₁.childrenOf t = d.childrenOf t ++ news ∧ ∀ i ∈ news, d.nodes.size ≤ i.index

theorem Annotated.appends (h : Annotated d d₁) : d.Appends d₁ where
  nodes_le := Nat.le_of_eq h.nodes_size.symm
  hasSite t := (h.hasItem_iff (.site t)).2
  children t _ := ⟨[], by rw [h.childrenOf, List.append_nil], fun _ hi => by cases hi⟩

theorem Appends.refl (d : Draft) : d.Appends d where
  nodes_le := Nat.le_refl _
  hasSite _ h := h
  children t _ := ⟨[], by rw [List.append_nil], fun _ hi => by cases hi⟩

theorem Appends.trans (h : d.Appends d₁) (h' : d₁.Appends d₂) : d.Appends d₂ where
  nodes_le := Nat.le_trans h.nodes_le h'.nodes_le
  hasSite t ht := h'.hasSite t (h.hasSite t ht)
  children t ht := by
    obtain ⟨news, hnews, hnew⟩ := h.children t ht
    obtain ⟨more, hmore, hnew'⟩ := h'.children t (h.hasSite t ht)
    refine ⟨news ++ more, by rw [hmore, hnews, List.append_assoc], fun i hi => ?_⟩
    rcases List.mem_append.1 hi with hi | hi
    · exact hnew i hi
    · exact Nat.le_trans h.nodes_le (hnew' i hi)

end Draft

theorem Stage.Plant.appends (h : S.Plant d d₁) : d.Appends d₁ := by
  obtain ⟨_, _, _, -, -, -, himplanted⟩ := h
  exact ⟨himplanted.nodes_le, fun t ht => himplanted.hasItem (x := .site t) ht, himplanted.children⟩

theorem Stage.Strokes.appends (h : S.Strokes d d₁) (hd : d.Sound) : d.Appends d₁ :=
  h.rule (P := d.Appends) hd (fun hrest hplant => hrest.trans hplant.appends)
    (fun hrest ha => hrest.trans ha.appends) (.refl d)

/-! ## Copies of what stands in an augmentation -/

namespace Draft

/-- The node `i` is a copy of a node that stands in the augmentation `a`. -/
def CopiedFrom (d : Draft) (a : AugmentId) (i : NodeId) : Prop :=
  ∃ o, (d.node i).origin = some o ∧ (d.node o).parent = some (.augment a)

theorem CopiedFrom.lt (h : d.CopiedFrom a i) : i.index < d.nodes.size := by
  obtain ⟨o, ho, -⟩ := h
  refine Nat.lt_of_not_le fun hle => ?_
  rw [node_of_size_le hle] at ho
  cases ho

theorem Pristine.not_copiedFrom (h : d.Pristine) : ¬ d.CopiedFrom a i := by
  rintro ⟨o, ho, -⟩
  rw [(h.nodes i).origin] at ho
  cases ho

theorem CopiedFrom.of_annotated (ha : Annotated d d₁) (h : d₁.CopiedFrom a i) : d.CopiedFrom a i := by
  obtain ⟨o, ho, hparent⟩ := h
  exact ⟨o, ha.origin i ▸ ho, ha.parent o ▸ hparent⟩

/-- The augmentation is there, and stands in no uses. -/
structure IsLoose (d : Draft) (a : AugmentId) : Prop where
  lt : a.index < d.augments.size
  loose : ∀ u, a ∉ (d.usesOf u).augmentations

/-- What stands in an augmentation that is loose is in no other body. -/
theorem IsLoose.eq_of_inside (h : d.IsLoose a) (hd : d.Sound) {b : Owner}
    (hin : d.Inside (.site b.site) (.site (.node o))) (ho : (d.node o).parent = some (.augment a)) :
    b = .augment a := by
  have haugment : d.Inside (.site b.site) (.site (.augment a)) := by
    rcases ReflTransGen.cases_tail hin with heq | ⟨y, hy, hoy⟩
    · exact absurd (Item.site.inj heq).symm (b.site_ne_node o)
    cases y with
    | uses u =>
      obtain ⟨_, -, heq⟩ := contains_uses.1 hoy
      cases heq
    | site t =>
      rcases contains_site.1 hoy with ⟨c, hc, heq⟩ | ⟨_, -, heq⟩
      · cases heq
        rw [hd.parent_eq hc] at ho
        rw [← Option.some.inj ho]
        exact hy
      · cases heq
  rcases ReflTransGen.cases_tail haugment with heq | ⟨y, -, hy⟩
  · cases b with
    | grouping g => cases heq
    | augment b' =>
      cases heq
      rfl
  · cases y with
    | uses u =>
      obtain ⟨a', ha', heq⟩ := contains_uses.1 hy
      cases heq
      exact absurd ha' (h.loose u)
    | site t =>
      rcases contains_site.1 hy with ⟨_, -, heq⟩ | ⟨_, -, heq⟩
      · cases heq
      · cases heq

theorem IsLoose.plant (h : d.IsLoose a) (hplant : S.Plant d d₁) : d₁.IsLoose a := by
  obtain ⟨_, _, _, -, -, -, himplanted⟩ := hplant
  refine ⟨Nat.lt_of_lt_of_le h.lt himplanted.augments_le, fun u hu => ?_⟩
  rcases himplanted.put (.uses u) (.site (.augment a)) (contains_uses.2 ⟨a, hu, rfl⟩) with
    hold | ⟨hnew, -⟩
  · obtain ⟨a', ha', heq⟩ := contains_uses.1 hold
    cases heq
    exact h.loose u ha'
  · exact hnew h.lt

theorem IsLoose.annotated (h : d.IsLoose a) (ha : Annotated d d₁) : d₁.IsLoose a where
  lt := ha.augments_size ▸ h.lt
  loose u hu := h.loose u (ha.augmentations u ▸ hu)

/-- No stroke of the stage copies what stands in the augmentation. -/
structure Spares (S : Stage) (a : AugmentId) : Prop where
  top : ∀ t ∈ S.augments, t.augment ≠ a
  inner : ∀ u, a ∉ (S.draft.usesOf u).augmentations

theorem Spares.of_plant (hS : Spares S a) (h : d.IsLoose a) (hsourced : d.Sourced)
    (hplant : S.Plant d d₁) (hi : d₁.CopiedFrom a i) : d.CopiedFrom a i := by
  obtain ⟨style, s, b, hd, hb, hs, himplanted⟩ := hplant
  have hlt₁ := hi.lt
  obtain ⟨o, ho, hparent⟩ := hi
  have hparent_of : ∀ j, j.index < d.nodes.size → (d₁.node j).parent = (d.node j).parent := by
    intro j hj
    rw [himplanted.node j hj]
  rcases Nat.lt_or_ge i.index d.nodes.size with hlt | hge
  · rw [himplanted.node i hlt] at ho
    exact ⟨o, ho, (hparent_of o (hsourced i o ho).lt).symm.trans hparent⟩
  · -- a new node would be a copy out of this very body
    rcases himplanted.copied i hge hlt₁ with hwrap | ⟨o', ho', hcopy⟩
    · rw [hwrap.origin] at ho
      cases ho
    · obtain rfl : o' = o := Option.some.inj (hcopy.origin.symm.trans ho)
      rw [hparent_of o' (hd.lt_of_inside ho')] at hparent
      obtain rfl := h.eq_of_inside hd ho' hparent
      rcases hb.augment_cases with ⟨t, -, ha⟩ | ⟨t, ht, ha⟩
      · exact absurd ha (hS.inner t.uses)
      · exact absurd ha (hS.top t ht)

/-- While an augmentation is spared, no copies come about of what stands in it. -/
theorem CopiedFrom.of_strokes (hS : Spares S a) (hd : d.Sound) (h : d.IsLoose a) (hsourced : d.Sourced)
    (hstrokes : S.Strokes d d₁) (hi : d₁.CopiedFrom a i) : d.CopiedFrom a i := by
  suffices H : d₁.IsLoose a ∧ d₁.Sourced ∧ ∀ i, d₁.CopiedFrom a i → d.CopiedFrom a i from H.2.2 i hi
  refine hstrokes.rule (P := fun d' => d'.IsLoose a ∧ d'.Sourced ∧
    ∀ i, d'.CopiedFrom a i → d.CopiedFrom a i) hd ?_ ?_ ⟨h, hsourced, fun _ hi => hi⟩
  · rintro d₁ d₂ ⟨hloose, hsourced, hback⟩ hplant
    exact ⟨hloose.plant hplant, hsourced.plant hplant,
      fun i hi => hback i (hS.of_plant hloose hsourced hplant hi)⟩
  · rintro d₁ d₂ ⟨hloose, hsourced, hback⟩ ha
    exact ⟨hloose.annotated ha, hsourced.annotated ha, fun i hi => hback i (hi.of_annotated ha)⟩

theorem IsLoose.strokes (h : d.IsLoose a) (hd : d.Sound) (hstrokes : S.Strokes d d₁) : d₁.IsLoose a :=
  hstrokes.rule hd plant annotated h

/-! ## One augmentation after the other -/

/-- The node `c` was merged in from the augmentation `a`: it is a copy of a node that stands there, or
a shorthand case around one. -/
def Stems (d : Draft) (a : AugmentId) (c : NodeId) : Prop :=
  d.CopiedFrom a c ∨
    (d.node c).kind = .caseNode true ∧ ∃ x rest, d.childrenOf (.node c) = x :: rest ∧ d.CopiedFrom a x

/-- What a node listed before an augmentation was merged does not stem from it. -/
theorem Appends.not_stems_old (h : d.Appends d₁) (hk : d.Keeps d₁) (hnone : ∀ i, d₁.CopiedFrom b i →
    d.nodes.size ≤ i.index) (hc : c.index < d.nodes.size)
    (hcase : (d.node c).kind = .caseNode true → ∃ x, d.CaseOf c x) (hd : d.Sound) :
    ¬ d₁.Stems b c := by
  rintro (hcopy | ⟨hkind, x, rest, hx, hcopy⟩)
  · exact Nat.not_lt.2 (hnone c hcopy) hc
  · rw [hk.kind c hc] at hkind
    obtain ⟨y, ⟨rest', hy⟩, -, -⟩ := hcase hkind
    obtain ⟨news, hnews, -⟩ := h.children (.node c) hc
    rw [hx, hy, List.cons_append] at hnews
    obtain ⟨rfl, -⟩ := List.cons.inj hnews
    have hlt : x.index < d.nodes.size := hd.child_lt (s := .node c) (by rw [hy]; exact List.mem_cons_self)
    exact Nat.not_lt.2 (hnone x hcopy) hlt

/-- What is new after an augmentation was merged does not stem from it. -/
theorem Keeps.not_stems_new (hk : d.Keeps d₁) (hd : d.Sound) (hd₁ : d₁.Sound)
    (hold : ∀ i, d₁.CopiedFrom a i → i.index < d.nodes.size) (hc : d.nodes.size ≤ c.index) :
    ¬ d₁.Stems a c := by
  rintro (hcopy | ⟨-, x, rest, hx, hcopy⟩)
  · exact Nat.not_lt.2 hc (hold c hcopy)
  · have hmem : x ∈ d₁.childrenOf (.node c) := by
      rw [hx]
      exact List.mem_cons_self
    exact Nat.not_lt.2 (hk.new_of_child hd hd₁ hc hmem) (hold x hcopy)

end Draft

/-- The first of two augmentations of one target is merged before the other one. -/
theorem Run.exists_between {ms : List Move} {ta tb : AugmentTask} (h : Run S ms ⟨[], [], d⟩)
    (hab : [ta, tb].Sublist S.augments) (htarget : ta.target = tb.target) :
    ∃ l₁ l₂, ms = l₁ ++ l₂ ∧ ta ∈ merges l₁ ∧ tb ∈ merges l₂ := by
  have hqueue := h.filter_merges ta.target
  rw [List.filter_nil, List.append_nil] at hqueue
  have hboth : [ta, tb].filter (·.target == ta.target) = [ta, tb] := by simp [htarget]
  have hsub : [ta, tb].Sublist (merges ms) := by
    have hfiltered := hab.filter (·.target == ta.target)
    rw [hboth, ← hqueue] at hfiltered
    exact hfiltered.trans List.filter_sublist
  obtain ⟨r₁, r₂, hms, hta, hrest⟩ := List.cons_sublist_iff.1 hsub
  obtain ⟨l₁, l₂, rfl, rfl, rfl⟩ := List.filterMap_eq_append_iff.1 hms
  exact ⟨l₁, l₂, rfl, hta, List.singleton_sublist.1 hrest⟩

theorem mem_merges {ms : List Move} {t : AugmentTask} (h : Move.merge t ∈ ms) : t ∈ merges ms :=
  List.mem_filterMap.2 ⟨_, h, rfl⟩

/-- Part of a run consists of strokes of a stage in which only its own augmentations wait. -/
theorem Run.strokes_merges {S₁ S₂ : Stage} {l : List Move} (h₁ : S₁.From S.draft)
    (hms : ∀ m ∈ l, S.Allows m) (h : Run S₁ l S₂) :
    Stage.Strokes ⟨S.uses, merges l, S.draft⟩ S₁.draft S₂.draft := by
  refine h.strokes_of h₁ fun m hm => ?_
  cases m with
  | expand t => exact hms _ hm
  | merge t => exact mem_merges hm

/-- No augmentation is merged both before and after a moment of a run. -/
theorem Run.disjoint_merges {l₁ l₂ : List Move} (h : Run S (l₁ ++ l₂) ⟨[], [], d⟩)
    (hids : (S.augments.map AugmentTask.augment).Nodup) :
    ∀ t ∈ merges l₁, ∀ u ∈ merges l₂, t.augment ≠ u.augment := by
  have hperm := h.perm_merges
  rw [List.append_nil, merges, List.filterMap_append] at hperm
  have hnodup := (hperm.map AugmentTask.augment).nodup_iff.1 hids
  rw [List.map_append] at hnodup
  intro t ht u hu
  exact (List.nodup_append.1 hnodup).2.2 _ (List.mem_map_of_mem ht) _ (List.mem_map_of_mem hu)

/-- What is there of copies out of an augmentation was there before strokes that spare it. -/
theorem Draft.CopiedFrom.of_keeps {d d₁ : Draft} (hk : d.Keeps d₁) (hsourced : d.Sourced)
    (h : d₁.CopiedFrom a i) (hi : i.index < d.nodes.size) : d.CopiedFrom a i := by
  obtain ⟨o, ho, hparent⟩ := h
  rw [hk.origin i hi] at ho
  exact ⟨o, ho, (hk.parent o (hsourced i o ho).lt).symm.trans hparent⟩

/-- Of two augmentations of one node, what comes from the one merged first stands before what comes
from the other one. -/
theorem Run.apart {ms : List Move} {ta tb : AugmentTask} (hS : S.From S.draft)
    (hpristine : S.draft.Pristine) (hstands : ∀ t ∈ S.augments, t.Stands S.draft)
    (hids : (S.augments.map AugmentTask.augment).Nodup) (h : Run S ms ⟨[], [], d⟩)
    (hab : [ta, tb].Sublist S.augments) (htarget : ta.target = tb.target)
    (hn : d.findDataNode ta.target = some n) :
    ∃ pre post, d.childrenOf (.node n) = pre ++ post ∧ (∀ c ∈ post, ¬ d.Stems ta.augment c) ∧
      ∀ c ∈ pre, ¬ d.Stems tb.augment c := by
  obtain ⟨l₁, l₂, rfl, hta, htb⟩ := h.exists_between hab htarget
  have hdisjoint := h.disjoint_merges hids
  obtain ⟨S₁, hrun₁, hrun₂⟩ := h.exists_of_append
  have hS₁ : S₁.From S.draft := hrun₁.from hS
  have hd₁ := hS₁.follows.sound
  have hd : S.draft.Follows d := (h.from hS).follows
  have hk : S₁.draft.Keeps d := hrun₂.keeps hS₁.toReady
  have hstrokes₁ := hrun₁.strokes_merges hS fun m hm => h.allows m (List.mem_append_left _ hm)
  have hstrokes₂ := hrun₂.strokes_merges hS₁ fun m hm => h.allows m (List.mem_append_right _ hm)
  have hstandsA := hstands ta (hab.subset List.mem_cons_self)
  have hstandsB := hstands tb (hab.subset (List.mem_cons_of_mem _ List.mem_cons_self))
  have h₀ := hS.start
  have hsourced₁ := hpristine.sourced.strokes h₀ hstrokes₁
  -- the second one brings nothing before, and the first one nothing after
  have hnewB : ∀ i, d.CopiedFrom tb.augment i → S₁.draft.nodes.size ≤ i.index := by
    intro i hi
    refine Nat.le_of_not_lt fun hlt => ?_
    have hspares : Spares ⟨S.uses, merges l₁, S.draft⟩ tb.augment :=
      ⟨fun t ht => hdisjoint t ht tb htb, hstandsB.loose⟩
    exact hpristine.not_copiedFrom ((hi.of_keeps hk hsourced₁ hlt).of_strokes hspares h₀
      ⟨hstandsB.lt, hstandsB.loose⟩ hpristine.sourced hstrokes₁)
  have holdA : ∀ i, d.CopiedFrom ta.augment i → i.index < S₁.draft.nodes.size := by
    intro i hi
    have hspares : Spares ⟨S.uses, merges l₂, S.draft⟩ ta.augment :=
      ⟨fun t ht heq => hdisjoint ta hta t ht heq.symm, hstandsA.loose⟩
    have hloose : S₁.draft.IsLoose ta.augment :=
      IsLoose.strokes ⟨hstandsA.lt, hstandsA.loose⟩ h₀ hstrokes₁
    exact (hi.of_strokes hspares hd₁ hloose hsourced₁ hstrokes₂).lt
  -- the target was there when the first one was merged
  obtain ⟨more, hnotes, hmore⟩ := hrun₁.notes hS hstands hpristine.notes
  rw [← hmore] at hta
  obtain ⟨⟨t, n₁⟩, hx, rfl⟩ := List.mem_map.1 hta
  have hn₁ := hnotes.found _ hx
  obtain rfl : n₁ = n := Option.some.inj ((hS₁.follows.findDataNode hd hk hn₁).symm.trans hn)
  obtain ⟨q, m, -, hm, hdesc⟩ := findDataNode_eq_some.1 hn₁
  have hunder := findDescendant_under hd₁ hdesc
  have hsite : S.draft.HasSite (.module m) := hasSite_of_moduleOf? (hS₁.follows.moduleOf? q.owner ▸ hm)
  obtain ⟨news, hnews, hnew⟩ := (hstrokes₂.appends hd₁).children (.node n₁) (findDescendant_lt hd₁ hdesc)
  refine ⟨_, news, hnews, fun c hc => hk.not_stems_new hd₁ hd.sound holdA (hnew c hc), fun c hc => ?_⟩
  exact (hstrokes₂.appends hd₁).not_stems_old hk hnewB (hd₁.child_lt hc)
    (hS₁.follows.regular.cases (.module m) hsite c (hd₁.under_of_mem hunder hc)) hd₁

end YangSchema
