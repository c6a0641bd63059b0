import YangSchema.Declaration.Module
import YangSchema.Proofs.Declaration.Pristine
import YangSchema.Proofs.Draft.References

/-!
# What a declaration adds to a draft

A declaration at a site adds new definitions, and puts contents into the site and into the new
definitions only; what was there stays (`Enlarges`).  All the names that it gives belong to one
module, and every new node has its path from the site that it hangs under.  Where only facts are edited,
everything stays where it is (`Restated`).
-/

namespace YangSchema

/-- The names of what a module says that it defines, apart from its nodes and groupings. -/
def ModuleFacts.definedNames (f : ModuleFacts) : List QName :=
  f.typedefs.map Typedef.name ++ f.extensions.map ExtensionDefinition.name ++
    f.features.map FeatureDefinition.name ++ f.identities.map IdentityDefinition.name

namespace Draft

variable {d d₁ d₂ : Draft} {s t : Site} {m : ModuleIdentity}

/-! ## Enlarged drafts -/

/-- `d₁` is `d` with new definitions, named in the module `m`, and with new contents at `s`. -/
structure Enlarges (m : ModuleIdentity) (s : Site) (d d₁ : Draft) : Prop where
  sound : d₁.Sound
  keeps : d.Keeps d₁
  modules_size : d₁.modules.size = d.modules.size
  childrenOf : ∀ t, d.HasSite t → t ≠ s → d₁.childrenOf t = d.childrenOf t
  usesAt : ∀ t, d.HasSite t → t ≠ s → d₁.usesAt t = d.usesAt t
  augmentations : ∀ u, u.index < d.uses.size →
    (d₁.usesOf u).augmentations = (d.usesOf u).augmentations
  groupings : ∀ i, Site.module i ≠ s → (d₁.module i).groupings = (d.module i).groupings
  tops : ∀ i, (d₁.module i).augmentations = (d.module i).augmentations
  /-- What is listed besides is named in the module. -/
  listed : ∀ t, ∀ g ∈ d₁.groupingsAt t, g ∈ d.groupingsAt t ∨ (t = s ∨ ¬ d.HasSite t) ∧
    g.index < d₁.groupings.size ∧ (d₁.grouping g).facts.name.owner = m
  defined : ∀ i, ∀ q ∈ (d₁.module i).facts.definedNames, q ∈ (d.module i).facts.definedNames ∨
    (Site.module i = s ∨ ¬ d.HasSite (.module i)) ∧ q.owner = m
  /-- What is put anywhere is new. -/
  fresh : ∀ x y, d₁.Contains y x → d.Contains y x ∨ ¬ d.HasItem y
  names : ∀ i : NodeId, d.nodes.size ≤ i.index → i.index < d₁.nodes.size →
    (d₁.node i).name.owner = m
  grouping_names : ∀ g : GroupingId, d.groupings.size ≤ g.index → g.index < d₁.groupings.size →
    (d₁.grouping g).facts.name.owner = m
  homes : ∀ a : AugmentId, d.augments.size ≤ a.index → a.index < d₁.augments.size →
    (d₁.augment a).facts.home = m
  paths : ∀ t, ∀ c ∈ d₁.childrenOf t, d.nodes.size ≤ c.index →
    (d₁.node c).path = (d₁.pathOf t).child (d₁.node c).name
  /-- A shorthand case holds one node. -/
  shorthands : ∀ i : NodeId, d.nodes.size ≤ i.index → i.index < d₁.nodes.size →
    (d₁.node i).kind = .caseNode true → ∃ c, d₁.childrenOf (.node i) = [c] ∧ d₁.CaseOf i c
  /-- Shorthand cases stand under choices. -/
  unwrapped : ∀ t, d₁.isChoice t = false → ∀ c ∈ d₁.childrenOf t, d.nodes.size ≤ c.index →
    (d₁.node c).kind ≠ .caseNode true
  pristine : d.Pristine → d₁.Pristine

/-- No shorthand case: bodies stand at such sites. -/
def Plain (d : Draft) (s : Site) : Prop := ∀ i, s = .node i → (d.node i).kind ≠ .caseNode true

namespace Enlarges

theorem of_keeps (h : d₁.Sound) (hk : d.Keeps d₁) (hn : d₁.nodes.size = d.nodes.size)
    (hg : d₁.groupings.size = d.groupings.size) (ha : d₁.augments.size = d.augments.size)
    (hm : d₁.modules.size = d.modules.size) (hchildren : ∀ t, d₁.childrenOf t = d.childrenOf t)
    (huses : ∀ t, d.HasSite t → t ≠ s → d₁.usesAt t = d.usesAt t)
    (haug : ∀ u, u.index < d.uses.size → (d₁.usesOf u).augmentations = (d.usesOf u).augmentations)
    (hgroupings : ∀ i, Site.module i ≠ s → (d₁.module i).groupings = (d.module i).groupings)
    (htops : ∀ i, (d₁.module i).augmentations = (d.module i).augmentations)
    (hlisted : ∀ t, ∀ g ∈ d₁.groupingsAt t, g ∈ d.groupingsAt t ∨ t = s ∧
      g.index < d₁.groupings.size ∧ (d₁.grouping g).facts.name.owner = m)
    (hdefined : ∀ i, ∀ q ∈ (d₁.module i).facts.definedNames, q ∈ (d.module i).facts.definedNames ∨
      Site.module i = s ∧ q.owner = m)
    (hfresh : ∀ x y, d₁.Contains y x → d.Contains y x ∨ ¬ d.HasItem y)
    (hpristine : d.Pristine → d₁.Pristine) : Enlarges m s d d₁ where
  sound := h
  keeps := hk
  modules_size := hm
  childrenOf t _ _ := hchildren t
  usesAt := huses
  augmentations := haug
  groupings := hgroupings
  tops := htops
  listed t g hg := (hlisted t g hg).imp_right fun h => ⟨.inl h.1, h.2⟩
  defined i q hq := (hdefined i q hq).imp_right fun h => ⟨.inl h.1, h.2⟩
  fresh := hfresh
  names _ h₁ h₂ := absurd h₁ (Nat.not_le.2 (hn ▸ h₂))
  grouping_names _ h₁ h₂ := absurd h₁ (Nat.not_le.2 (hg ▸ h₂))
  homes _ h₁ h₂ := absurd h₁ (Nat.not_le.2 (ha ▸ h₂))
  paths _ _ hc hle := absurd hle (Nat.not_le.2 (hn ▸ h.child_lt hc))
  shorthands _ h₁ h₂ := absurd h₁ (Nat.not_le.2 (hn ▸ h₂))
  unwrapped _ _ _ hc hle := absurd hle (Nat.not_le.2 (hn ▸ h.child_lt hc))
  pristine := hpristine

theorem of_alike (hd : d.Sound) (h : d.Alike d₁)
    (hgroupings : ∀ i, Site.module i ≠ s → (d₁.module i).groupings = (d.module i).groupings)
    (htops : ∀ i, (d₁.module i).augmentations = (d.module i).augmentations)
    (hlisted : ∀ t, ∀ g ∈ d₁.groupingsAt t, g ∈ d.groupingsAt t ∨ t = s ∧
      g.index < d₁.groupings.size ∧ (d₁.grouping g).facts.name.owner = m)
    (hdefined : ∀ i, ∀ q ∈ (d₁.module i).facts.definedNames, q ∈ (d.module i).facts.definedNames ∨
      Site.module i = s ∧ q.owner = m)
    (hpristine : d.Pristine → d₁.Pristine) : Enlarges m s d d₁ :=
  of_keeps (h.sound hd) h.keeps h.nodes_size h.groupings_size h.augments_size h.modules_size
    h.childrenOf (fun t _ _ => h.usesAt t) (fun u _ => h.augmentations u) hgroupings htops hlisted
    hdefined (fun _ _ hxy => .inl (h.contains ▸ hxy)) hpristine

theorem refl (hd : d.Sound) : Enlarges m s d d :=
  .of_alike hd (.refl hd.unfrozen) (fun _ _ => rfl) (fun _ => rfl) (fun _ _ => .inl) (fun _ _ => .inl) id

theorem hasItem (h : Enlarges m s d d₁) {x : Item} (hx : d.HasItem x) : d₁.HasItem x := by
  cases x with
  | site s => exact h.keeps.hasSite hx
  | uses u => exact Nat.lt_of_lt_of_le hx h.keeps.uses_le

theorem plain (h : Enlarges m s d d₁) (ht : d.HasSite t) (hp : d.Plain t) : d₁.Plain t := by
  rintro i rfl
  rw [h.keeps.kind i ht]
  exact hp i rfl

/-- Contents are added at the same site, or at a new one. -/
theorem trans_at (h : Enlarges m s d d₁) (h' : Enlarges m t d₁ d₂) (ht : t = s ∨ ¬ d.HasSite t)
    (hplain : d₁.Plain t) : Enlarges m s d d₂ where
  sound := h'.sound
  keeps := h.keeps.trans h'.keeps
  modules_size := h'.modules_size.trans h.modules_size
  childrenOf x hx hne := by
    have hxt : x ≠ t := by
      rintro rfl
      exact ht.elim hne fun ht => ht hx
    rw [h'.childrenOf x (h.keeps.hasSite hx) hxt, h.childrenOf x hx hne]
  usesAt x hx hne := by
    have hxt : x ≠ t := by
      rintro rfl
      exact ht.elim hne fun ht => ht hx
    rw [h'.usesAt x (h.keeps.hasSite hx) hxt, h.usesAt x hx hne]
  augmentations u hu := by
    rw [h'.augmentations u (Nat.lt_of_lt_of_le hu h.keeps.uses_le), h.augmentations u hu]
  groupings i hi := by
    have hit : Site.module i ≠ t ∨ ¬ d.HasSite (.module i) := by
      by_cases hit : Site.module i = t
      · rcases ht with ht | ht
        · exact absurd (hit.trans ht) hi
        · exact .inr (hit ▸ ht)
      · exact .inl hit
    rcases hit with hit | hit
    · rw [h'.groupings i hit, h.groupings i hi]
    · have hle := Nat.not_lt.1 hit
      rw [module_of_size_le hle, module_of_size_le (by rw [h'.modules_size, h.modules_size]; exact hle)]
  tops i := (h'.tops i).trans (h.tops i)
  listed x g hg := by
    rcases h'.listed x g hg with hg | ⟨hx, hlt, hname⟩
    · refine (h.listed x g hg).imp_right fun ⟨hx, hlt, hname⟩ => ⟨hx, ?_, ?_⟩
      · exact Nat.lt_of_lt_of_le hlt h'.keeps.groupings_le
      · rw [h'.keeps.grouping g hlt, hname]
    · refine .inr ⟨?_, hlt, hname⟩
      rcases hx with rfl | hx
      · exact ht
      · exact .inr fun hx' => hx (h.keeps.hasSite hx')
  defined i q hq := by
    rcases h'.defined i q hq with hq | ⟨hi, hq⟩
    · exact h.defined i q hq
    · refine .inr ⟨?_, hq⟩
      rcases hi with rfl | hi
      · exact ht
      · exact .inr fun hi' => hi (h.keeps.hasSite hi')
  fresh x y hxy := by
    rcases h'.fresh x y hxy with hxy | hy
    · exact h.fresh x y hxy
    · exact .inr fun hy' => hy (h.hasItem hy')
  names i h₁ h₂ := by
    by_cases hi : i.index < d₁.nodes.size
    · rw [h'.keeps.name i hi]
      exact h.names i h₁ hi
    · exact h'.names i (Nat.not_lt.1 hi) h₂
  grouping_names g h₁ h₂ := by
    by_cases hg : g.index < d₁.groupings.size
    · rw [h'.keeps.grouping g hg]
      exact h.grouping_names g h₁ hg
    · exact h'.grouping_names g (Nat.not_lt.1 hg) h₂
  homes a h₁ h₂ := by
    by_cases ha : a.index < d₁.augments.size
    · rw [h'.keeps.home a ha]
      exact h.homes a h₁ ha
    · exact h'.homes a (Nat.not_lt.1 ha) h₂
  paths x c hc hle := by
    by_cases hlt : c.index < d₁.nodes.size
    · have hc₁ := h'.keeps.mem_childrenOf h.sound h'.sound hc hlt
      rw [h'.keeps.path c hlt, h'.keeps.name c hlt, h'.keeps.pathOf (hasSite_of_mem_childrenOf hc₁)]
      exact h.paths x c hc₁ hle
    · exact h'.paths x c hc (Nat.not_lt.1 hlt)
  shorthands i h₁ h₂ hk := by
    by_cases hi : i.index < d₁.nodes.size
    · rw [h'.keeps.kind i hi] at hk
      rw [h'.childrenOf (.node i) hi fun hit => hplain i hit.symm hk]
      obtain ⟨c, hc, hcase⟩ := h.shorthands i h₁ hi hk
      exact ⟨c, hc, hcase.keeps h.sound h'.keeps⟩
    · exact h'.shorthands i (Nat.not_lt.1 hi) h₂ hk
  unwrapped x hx c hc hle := by
    by_cases hlt : c.index < d₁.nodes.size
    · have hc₁ := h'.keeps.mem_childrenOf h.sound h'.sound hc hlt
      rw [h'.keeps.isChoice (hasSite_of_mem_childrenOf hc₁)] at hx
      rw [h'.keeps.kind c hlt]
      exact h.unwrapped x hx c hc₁ hle
    · exact h'.unwrapped x hx c hc (Nat.not_lt.1 hlt)
  pristine hp := h'.pristine (h.pristine hp)

theorem trans (h : Enlarges m s d d₁) (h' : Enlarges m s d₁ d₂) (hs : d.HasSite s)
    (hplain : d.Plain s) : Enlarges m s d d₂ :=
  h.trans_at h' (.inl rfl) (h.plain hs hplain)

end Enlarges

/-! ## New definitions -/

namespace Attached

variable {r : NodeDraft} {x : NodeId} (h : (d.withNode r).Attached s ⟨d.nodes.size⟩ x d₁)
include h

/-- The new nodes: the node itself, and perhaps a shorthand case around it. -/
theorem new_or_wrapper {i : NodeId} (hle : d.nodes.size ≤ i.index) (hlt : i.index < d₁.nodes.size) :
    i = ⟨d.nodes.size⟩ ∨ i = x ∧ (d.withNode r).wraps s ⟨d.nodes.size⟩ = true := by
  rcases Nat.lt_or_ge i.index (d.withNode r).nodes.size with hi | hi
  · refine .inl ?_
    cases i
    rw [withNode, Shelf.size_push] at hi
    exact congrArg NodeId.mk (Nat.le_antisymm (Nat.le_of_lt_succ hi) hle)
  · exact .inr (h.eq_of_new hi hlt)

theorem name_new : (d₁.node ⟨d.nodes.size⟩).name = r.name := by
  rw [h.name (lt_withNode r), node_withNode_self]

theorem kind_new : (d₁.node ⟨d.nodes.size⟩).kind = r.kind := by
  rw [h.kind (lt_withNode r), node_withNode_self]

theorem children_new (hs : d.HasSite s) (hc : r.children = []) :
    d₁.childrenOf (.node ⟨d.nodes.size⟩) = [] := by
  rw [h.children_of_hasSite (t := .node ⟨d.nodes.size⟩) (lt_withNode r) fun hds => ?_,
    childrenOf_withNode hc, childrenOf_of_not_hasSite (Nat.lt_irrefl _)]
  exact absurd (hds ▸ hs) (Nat.lt_irrefl _)

/-- A node that lists no groupings is attached, perhaps with a shorthand case around it. -/
theorem groupingsAt_subset (hg : r.groupings = []) (t : Site) : d₁.groupingsAt t ⊆ d.groupingsAt t := by
  intro g hgt
  cases t with
  | module i =>
    change g ∈ (d₁.module i).groupings at hgt
    rw [h.module] at hgt
    exact hgt
  | grouping i =>
    change g ∈ (d₁.grouping i).groupings at hgt
    rw [h.grouping] at hgt
    exact hgt
  | augment i => cases hgt
  | node i =>
    change g ∈ (d₁.node i).groupings at hgt
    rcases Nat.lt_or_ge i.index (d.withNode r).nodes.size with hlt | hge
    · rw [h.node i hlt] at hgt
      replace hgt : g ∈ ((d.withNode r).node i).groupings := hgt
      rw [node_withNode] at hgt
      split at hgt
      · rw [hg] at hgt
        cases hgt
      · exact hgt
    rcases Nat.lt_or_ge i.index d₁.nodes.size with hlt₁ | hge₁
    · obtain ⟨rfl, hw⟩ := h.eq_of_new hge hlt₁
      rw [(h.wrapper hw).2.2] at hgt
      cases hgt
    · rw [node_of_size_le hge₁] at hgt
      cases hgt

/-- The shorthand case holds the node, which is no case. -/
theorem caseOf_wrapper (hw : (d.withNode r).wraps s ⟨d.nodes.size⟩ = true) :
    d₁.CaseOf x ⟨d.nodes.size⟩ where
  first := ⟨[], h.children_wrapper hw⟩
  name := by rw [h.name (lt_withNode r), h.name_wrapper hw]
  not_case := by
    rw [wraps_eq, Bool.and_eq_true, Bool.not_eq_true'] at hw
    rw [h.kind (lt_withNode r), hw.2]

variable (hd : d.Sound) (hs : d.HasSite s)
include hd hs

theorem changes_new : Changes s d d₁ := h.changes hd hs (.withNode d r) (Nat.le_refl _)

/-- What was there is put nowhere. -/
theorem contains_old (hu : r.uses = []) {y z : Item} (hz : d.HasItem z) (hyz : d₁.Contains z y) :
    d.Contains z y := by
  have hch := h.changes_new hd hs
  cases y with
  | uses u =>
    rw [contains_uses] at hyz ⊢
    rwa [usesOf, h.uses] at hyz
  | site t =>
    rcases contains_site.1 hyz with ⟨c, hc, rfl⟩ | ⟨u, hut, rfl⟩
    · exact contains_site.2 (.inl ⟨c, hch.keeps.mem_childrenOf hd hch.sound hc hz, rfl⟩)
    · rw [h.usesAt, usesAt_withNode hu] at hut
      exact contains_site.2 (.inr ⟨u, hut, rfl⟩)

theorem isChoice_new : d₁.isChoice s = (d.withNode r).isChoice s := by
  rw [(h.changes_new hd hs).keeps.isChoice hs, (Keeps.of_extends (.withNode d r)).isChoice hs]

theorem wraps_new : d₁.wraps s ⟨d.nodes.size⟩ = (d.withNode r).wraps s ⟨d.nodes.size⟩ := by
  rw [wraps_eq, wraps_eq, h.isChoice_new hd hs, h.kind (lt_withNode r)]

/-- The new nodes have the paths of their places. -/
theorem path_child {t : Site} {c : NodeId} (hc : c ∈ d₁.childrenOf t) (hle : d.nodes.size ≤ c.index) :
    (d₁.node c).path = (d₁.pathOf t).child (d₁.node c).name := by
  have hch := h.changes_new hd hs
  have hpathOf : d₁.pathOf s = (d.withNode r).pathOf s := by
    rw [hch.keeps.pathOf hs, (Extends.withNode d r).pathOf hs]
  have hparent := hch.sound.parent_eq hc
  rcases h.new_or_wrapper hle (hch.sound.child_lt hc) with rfl | ⟨rfl, hw⟩
  · rw [h.parent_self (lt_withNode r)] at hparent
    rw [h.path_self (lt_withNode r) hpathOf, Option.some.inj hparent]
  · rw [h.parent_wrapper hw] at hparent
    rw [h.path_wrapper hw, ← hpathOf, Option.some.inj hparent]

/-- A new node at a site. -/
theorem enlarges (hu : r.uses = []) (hname : r.name.owner = m) (hkind : r.kind ≠ .caseNode true)
    (hr : r.Pristine) (hg : r.groupings = []) : Enlarges m s d d₁ := by
  have hch := h.changes_new hd hs
  have he := Extends.withNode d r
  exact {
    sound := hch.sound
    keeps := hch.keeps
    modules_size := hch.modules_size
    childrenOf := fun t ht hne => by
      rw [h.children_of_hasSite (he.hasSite ht) hne, he.childrenOf ht]
    usesAt := fun t _ _ => by rw [h.usesAt, usesAt_withNode hu]
    augmentations := hch.augmentations
    groupings := fun i _ => hch.groupings i
    tops := hch.tops
    listed := fun t g hgt => .inl (h.groupingsAt_subset hg t hgt)
    defined := fun i q hq => .inl (by rwa [h.module] at hq)
    fresh := fun y z hyz => by
      by_cases hz : d.HasItem z
      · exact .inl (h.contains_old hd hs hu hz hyz)
      · exact .inr hz
    names := fun i h₁ h₂ => by
      rcases h.new_or_wrapper h₁ h₂ with rfl | ⟨rfl, hw⟩
      · rw [h.name_new, hname]
      · rw [h.name_wrapper hw, node_withNode_self, hname]
    grouping_names := fun g h₁ h₂ => absurd h₁ (Nat.not_le.2 (hch.groupings_size ▸ h₂))
    homes := fun a h₁ h₂ => by
      rw [h.augments_size] at h₂
      exact absurd h₁ (Nat.not_le.2 h₂)
    paths := fun t c => h.path_child hd hs
    shorthands := fun i h₁ h₂ hk => by
      rcases h.new_or_wrapper h₁ h₂ with rfl | ⟨rfl, hw⟩
      · exact absurd (h.kind_new.symm.trans hk) hkind
      · exact ⟨_, h.children_wrapper hw, h.caseOf_wrapper hw⟩
    unwrapped := fun t ht c hct hle => by
      rcases h.new_or_wrapper hle (hch.sound.child_lt hct) with rfl | ⟨rfl, hw⟩
      · rw [h.kind_new]
        exact hkind
      · -- the site is a choice
        have hparent := hch.sound.parent_eq hct
        rw [h.parent_wrapper hw] at hparent
        rw [wraps_eq, ← h.isChoice_new hd hs, Option.some.inj hparent, ht] at hw
        cases hw
    pristine := fun hp => (hp.withNode hr hg).attached h }

end Attached

/-! ### Groupings -/

theorem usesAt_withGrouping {r : GroupingDraft} (hu : r.uses = []) (s : Site) :
    (d.withGrouping r).usesAt s = d.usesAt s := by
  cases s with
  | grouping i =>
    show ((d.withGrouping r).grouping i).uses = (d.grouping i).uses
    rw [grouping_withGrouping]
    split
    · next hi => rw [grouping_of_size_le (Nat.le_of_eq hi.symm), hu]; rfl
    · rfl
  | _ => rfl

theorem groupingsAt_withGrouping {r : GroupingDraft} (hg : r.groupings = []) (s : Site) :
    (d.withGrouping r).groupingsAt s = d.groupingsAt s := by
  cases s with
  | grouping i =>
    show ((d.withGrouping r).grouping i).groupings = (d.grouping i).groupings
    rw [grouping_withGrouping]
    split
    · next hi => rw [grouping_of_size_le (Nat.le_of_eq hi.symm), hg]; rfl
    · rfl
  | _ => rfl

theorem contains_withGrouping {r : GroupingDraft} (hc : r.children = []) (hu : r.uses = []) :
    (d.withGrouping r).Contains = d.Contains := by
  funext y x
  cases x with
  | site s => simp only [Contains, contents, childrenOf_withGrouping hc, usesAt_withGrouping hu]
  | uses u => rfl

/-- A new grouping, its body still empty. -/
theorem enlarges_withGrouping (hd : d.Sound) {r : GroupingDraft} (hc : r.children = [])
    (hu : r.uses = []) (hg : r.groupings = []) (hname : r.facts.name.owner = m) :
    Enlarges m s d (d.withGrouping r) := by
  have hcontains := contains_withGrouping (d := d) hc hu
  have hsize : (d.withGrouping r).groupings.size = d.groupings.size + 1 := Shelf.size_push _ _
  have hold : ∀ g : GroupingId, g.index < d.groupings.size →
      (d.withGrouping r).grouping g = d.grouping g := by
    intro g hg
    rw [grouping_withGrouping, if_neg (Nat.ne_of_lt hg)]
  have hsound : (d.withGrouping r).Sound :=
    ⟨hd.unfrozen.withGrouping r, fun t c => by
      rw [childrenOf_withGrouping hc]
      exact hd.parent_iff t c, fun t u h => hd.uses_lt t u (usesAt_withGrouping hu t ▸ h),
      hd.augment_lt, hcontains ▸ hd.wf⟩
  exact {
    sound := hsound
    keeps := { Keeps.refl d with
      groupings_le := by rw [hsize]; exact Nat.le_succ _
      children := fun t _ => by rw [childrenOf_withGrouping hc]
      usesAt := fun t _ => by rw [usesAt_withGrouping hu]
      grouping := fun g hg => by rw [hold g hg]
      grouping_path := fun g hg => by rw [hold g hg] }
    modules_size := rfl
    childrenOf := fun t _ _ => childrenOf_withGrouping hc t
    usesAt := fun t _ _ => usesAt_withGrouping hu t
    augmentations := fun _ _ => rfl
    groupings := fun _ _ => rfl
    tops := fun _ => rfl
    listed := fun t g hgt => .inl (groupingsAt_withGrouping hg t ▸ hgt)
    defined := fun _ _ => .inl
    fresh := fun _ _ h => .inl (hcontains ▸ h)
    names := fun _ h₁ h₂ => absurd h₁ (Nat.not_le.2 h₂)
    grouping_names := fun g h₁ h₂ => by
      rw [hsize] at h₂
      rw [grouping_withGrouping, if_pos (Nat.le_antisymm (Nat.le_of_lt_succ h₂) h₁), hname]
    homes := fun _ h₁ h₂ => absurd h₁ (Nat.not_le.2 h₂)
    paths := fun t c hct hle => by
      rw [childrenOf_withGrouping hc] at hct
      exact absurd hle (Nat.not_le.2 (hd.child_lt hct))
    shorthands := fun _ h₁ h₂ => absurd h₁ (Nat.not_le.2 h₂)
    unwrapped := fun t _ c hct hle => by
      rw [childrenOf_withGrouping hc] at hct
      exact absurd hle (Nat.not_le.2 (hd.child_lt hct))
    pristine := fun hp => hp.withGrouping hg }

/-! ### Uses and augmentations -/

theorem groupingsAt_pushedUses (s t : Site) (u : UsesId) :
    (d.pushedUses s u).groupingsAt t = d.groupingsAt t := by
  cases t with
  | module i =>
    show (Draft.module _ i).groupings = _
    rw [module_pushedUses]
    rfl
  | node i =>
    show (Draft.node _ i).groupings = _
    rw [node_pushedUses]
    rfl
  | grouping i =>
    show (Draft.grouping _ i).groupings = _
    rw [grouping_pushedUses]
    rfl
  | augment i => rfl

/-- A new uses without augmentations holds nothing. -/
theorem contains_withBareUses {r : UsesDraft} (hr : r.augmentations = []) {x y : Item}
    (h : (d.withUses r).Contains y x) : d.Contains y x := by
  rcases contains_withUses h with h | ⟨-, a, ha, -⟩
  · exact h
  · rw [hr] at ha
    cases ha

theorem Sound.withBareUses (hd : d.Sound) {r : UsesDraft} (hr : r.augmentations = []) :
    (d.withUses r).Sound := by
  refine hd.withUses (fun _ => False) (fun _ _ h => h.elim) (fun _ h => h.elim) ?_
  rw [hr]
  simp

/-- A new uses at a site. -/
theorem enlarges_pushedUses (hd : d.Sound) (hs : d.HasSite s) {r : UsesDraft}
    (hr : r.augmentations = []) :
    Enlarges m s d ((d.withUses r).pushedUses s ⟨d.uses.size⟩) := by
  have he := Extends.withUses d r
  have hs' : (d.withUses r).HasSite s := he.hasSite hs
  have hempty : ∀ y, ¬ (d.withUses r).Contains y (.uses ⟨d.uses.size⟩) := by
    intro y h
    exact absurd (hasItem_of_contains (contains_withBareUses hr h)) (Nat.lt_irrefl _)
  have hpushed : ((d.withUses r).pushedUses s ⟨d.uses.size⟩).Sound :=
    (hd.withBareUses hr).pushedUses hs' (fun x => x = .uses ⟨d.uses.size⟩)
      (fun x y hx hy => by subst hx; exact absurd hy (hempty y)) rfl (Shelf.lt_size_push _ _) (by simp)
  obtain ⟨hnodes, hgroupings, huses, haugments, hmodules⟩ :=
    (d.withUses r).sizes_pushedUses s ⟨d.uses.size⟩
  refine .of_keeps hpushed (.pushedUses he s _) hnodes hgroupings haugments hmodules (fun t => ?_)
    (fun t ht hts => ?_) (fun u hu => ?_) (fun i _ => ?_) (fun i => ?_) (fun t g hg => .inl ?_)
    (fun i q hq => .inl ?_) (fun x y h => ?_) fun hp => (hp.withUses r).pushedUses s _
  · rw [childrenOf_pushedUses]
    cases t <;> rfl
  · rw [usesAt_pushedUses_of_ne (Ne.symm hts), he.usesAt ht]
  · rw [usesOf, huses]
    exact congrArg UsesDraft.augmentations (he.usesOf u hu)
  · rw [module_pushedUses]
    rfl
  · rw [module_pushedUses]
    rfl
  · rw [groupingsAt_pushedUses] at hg
    cases t <;> exact hg
  · rw [module_pushedUses] at hq
    exact hq
  · rcases (contains_pushedUses hs' _).1 h with h | ⟨-, rfl⟩
    · exact .inl (contains_withBareUses hr h)
    · exact .inr (Nat.lt_irrefl _)

/-- A new augmentation, its body still empty. -/
theorem enlarges_withAugment (hd : d.Sound) {r : AugmentDraft} (hc : r.children = [])
    (hu : r.uses = []) (ho : r.origin = none) (hhome : r.facts.home = m) :
    Enlarges m s d (d.withAugment r) := by
  have hcontains := contains_withAugment (d := d) hc hu
  have hsize : (d.withAugment r).augments.size = d.augments.size + 1 := Shelf.size_push _ _
  exact {
    sound := hd.withAugment hc hu
    keeps := .of_extends (.withAugment d r)
    modules_size := rfl
    childrenOf := fun t _ _ => childrenOf_withAugment hc t
    usesAt := fun t _ _ => usesAt_withAugment hu t
    augmentations := fun _ _ => rfl
    groupings := fun _ _ => rfl
    tops := fun _ => rfl
    listed := fun t g hgt => .inl (by cases t <;> exact hgt)
    defined := fun _ _ => .inl
    fresh := fun _ _ h => .inl (hcontains ▸ h)
    names := fun _ h₁ h₂ => absurd h₁ (Nat.not_le.2 h₂)
    grouping_names := fun _ h₁ h₂ => absurd h₁ (Nat.not_le.2 h₂)
    homes := fun a h₁ h₂ => by
      rw [hsize] at h₂
      rw [augment_withAugment, if_pos (Nat.le_antisymm (Nat.le_of_lt_succ h₂) h₁), hhome]
    paths := fun t c hct hle => by
      rw [childrenOf_withAugment hc] at hct
      exact absurd hle (Nat.not_le.2 (hd.child_lt hct))
    shorthands := fun _ h₁ h₂ => absurd h₁ (Nat.not_le.2 h₂)
    unwrapped := fun t _ c hct hle => by
      rw [childrenOf_withAugment hc] at hct
      exact absurd hle (Nat.not_le.2 (hd.child_lt hct))
    pristine := fun hp => hp.withAugment ho }

/-- An augmentation that is younger than its uses goes into the uses. -/
theorem Sound.pushAugment (h : d.Enlarges m s d₁) {u : UsesId} (hu : u.index < d.uses.size)
    {a : AugmentId} (ha : d.augments.size ≤ a.index) (hlt : a.index < d₁.augments.size) :
    (d₁.mapUses u fun r => { r with augmentations := r.augmentations ++ [a] }).Sound := by
  have hcontains : ∀ {x y}, (d₁.mapUses u fun r => { r with
      augmentations := r.augmentations ++ [a] }).Contains y x → d₁.Contains y x ∨ x = .uses u ∧
        y = .site (.augment a) := by
    intro x y hxy
    cases x with
    | site t =>
      rw [contains_site, childrenOf_mapUses, usesAt_mapUses] at hxy
      exact .inl (contains_site.2 hxy)
    | uses v =>
      rw [contains_uses, usesOf_mapUses] at hxy
      split at hxy
      · next hv =>
        obtain ⟨b, hb, rfl⟩ := hxy
        rcases List.mem_append.1 hb with hb | hb
        · exact .inl (contains_uses.2 ⟨b, hb, rfl⟩)
        · exact .inr ⟨by rw [hv.1], by rw [List.mem_singleton.1 hb]⟩
      · exact .inl (contains_uses.2 hxy)
  have hsize : (d₁.mapUses u fun r => { r with
      augmentations := r.augmentations ++ [a] }).uses.size = d₁.uses.size := Shelf.size_update _ _ _
  refine ⟨h.sound.unfrozen.mapUses u _, fun t c => ?_, fun t v hv => ?_, fun v b hb => ?_, ?_⟩
  · rw [childrenOf_mapUses]
    exact h.sound.parent_iff t c
  · rw [usesAt_mapUses] at hv
    rw [hsize]
    exact h.sound.uses_lt t v hv
  · rw [usesOf_mapUses] at hb
    split at hb
    · rcases List.mem_append.1 hb with hb | hb
      · exact h.sound.augment_lt v b hb
      · rw [List.mem_singleton.1 hb]
        exact hlt
    · exact h.sound.augment_lt v b hb
  · -- what is new contains only what is new, and the uses is not new
    refine wellFounded_of_new h.sound.wf (fun x => ¬ d.HasItem x) (fun x y hx hy => ?_)
      fun x y hy => ?_
    · rcases hcontains hy with hy | ⟨rfl, -⟩
      · exact ⟨(h.fresh x y hy).elim (fun hy => absurd (Draft.hasItem_of_contains hy) hx) id, hy⟩
      · exact absurd hu hx
    · rcases hcontains hy with hy | ⟨-, rfl⟩
      · exact .inr hy
      · exact .inl (Nat.not_lt.2 ha)

/-- A new uses gets a new augmentation. -/
theorem Enlarges.pushAugment (h : d.Enlarges m s d₁) {u : UsesId} (hu : d.uses.size ≤ u.index)
    {a : AugmentId} (ha : d.augments.size ≤ a.index)
    (hsound : (d₁.mapUses u fun r => { r with augmentations := r.augmentations ++ [a] }).Sound) :
    d.Enlarges m s (d₁.mapUses u fun r => { r with augmentations := r.augmentations ++ [a] }) :=
  { h with
    sound := hsound
    keeps := { h.keeps with
      uses_le := by
        show _ ≤ (Shelf.update _ _ _).size
        rw [Shelf.size_update]
        exact h.keeps.uses_le
      children := fun t ht => by
        rw [childrenOf_mapUses]
        exact h.keeps.children t ht
      usesAt := fun t ht => by
        rw [usesAt_mapUses]
        exact h.keeps.usesAt t ht }
    childrenOf := fun t ht hne => by
      rw [childrenOf_mapUses]
      exact h.childrenOf t ht hne
    usesAt := fun t ht hne => by
      rw [usesAt_mapUses]
      exact h.usesAt t ht hne
    listed := fun t g hg => h.listed t g (by cases t <;> exact hg)
    augmentations := fun v hv => by
      have huv : ¬ (u = v ∧ v.index < d₁.uses.size) := by
        rintro ⟨rfl, -⟩
        exact Nat.not_lt.2 hu hv
      rw [usesOf_mapUses, if_neg huv]
      exact h.augmentations v hv
    fresh := fun x y hxy => by
      cases x with
      | site t =>
        rw [contains_site, childrenOf_mapUses, usesAt_mapUses] at hxy
        exact h.fresh (.site t) y (contains_site.2 hxy)
      | uses v =>
        rw [contains_uses, usesOf_mapUses] at hxy
        split at hxy
        · obtain ⟨b, hb, rfl⟩ := hxy
          rcases List.mem_append.1 hb with hb | hb
          · exact h.fresh (.uses v) _ (contains_uses.2 ⟨b, hb, rfl⟩)
          · rw [List.mem_singleton.1 hb]
            exact .inr (Nat.not_lt.2 ha)
        · exact h.fresh (.uses v) y (contains_uses.2 hxy)
    paths := fun t c hc hle => by
      rw [childrenOf_mapUses] at hc
      have := h.paths t c hc hle
      cases t <;> exact this
    shorthands := fun i h₁ h₂ hi => by
      obtain ⟨c, hc, hcase⟩ := h.shorthands i h₁ h₂ hi
      exact ⟨c, hc, hcase.first, hcase.name, hcase.not_case⟩
    unwrapped := fun t ht c hc hle => by
      rw [childrenOf_mapUses] at hc
      refine h.unwrapped t ?_ c hc hle
      cases t <;> exact ht
    pristine := fun hp => (h.pristine hp).mapUses u _ }

/-! ### Records that say more -/

theorem alike_mapModule {f : ModuleDraft → ModuleDraft} (hd : d.Unfrozen)
    (hheading : ∀ r, (f r).facts.heading = r.facts.heading)
    (hchildren : ∀ r, (f r).children = r.children) (huses : ∀ r, (f r).uses = r.uses) (i : ModuleId) :
    d.Alike (d.mapModule i f) := by
  have hmodule : ∀ {α : Type} (g : ModuleDraft → α), (∀ r, g (f r) = g r) → ∀ j,
      g ((d.mapModule i f).module j) = g (d.module j) := by
    intro α g hg j
    rw [module_mapModule]
    split
    · exact hg _
    · rfl
  exact { Alike.refl hd with
    unfrozen := hd.mapModule i f
    modules_size := Shelf.size_update _ _ _
    childrenOf := fun t => by
      cases t with
      | module j => exact hmodule ModuleDraft.children hchildren j
      | _ => rfl
    usesAt := fun t => by
      cases t with
      | module j => exact hmodule ModuleDraft.uses huses j
      | _ => rfl
    heading := hmodule (fun r => r.facts.heading) hheading }

theorem alike_mapGrouping {f : GroupingDraft → GroupingDraft} (hd : d.Unfrozen)
    (hname : ∀ r, (f r).facts.name = r.facts.name) (hpath : ∀ r, (f r).facts.path = r.facts.path)
    (hchildren : ∀ r, (f r).children = r.children) (huses : ∀ r, (f r).uses = r.uses)
    (i : GroupingId) : d.Alike (d.mapGrouping i f) := by
  have hgrouping : ∀ {α : Type} (g : GroupingDraft → α), (∀ r, g (f r) = g r) → ∀ j,
      g ((d.mapGrouping i f).grouping j) = g (d.grouping j) := by
    intro α g hg j
    rw [grouping_mapGrouping]
    split
    · exact hg _
    · rfl
  exact { Alike.refl hd with
    unfrozen := hd.mapGrouping i f
    groupings_size := Shelf.size_update _ _ _
    childrenOf := fun t => by
      cases t with
      | grouping j => exact hgrouping GroupingDraft.children hchildren j
      | _ => rfl
    usesAt := fun t => by
      cases t with
      | grouping j => exact hgrouping GroupingDraft.uses huses j
      | _ => rfl
    grouping := hgrouping (fun r => r.facts.name) hname
    grouping_path := hgrouping (fun r => r.facts.path) hpath }

theorem alike_mapAugment {f : AugmentDraft → AugmentDraft} (hd : d.Unfrozen)
    (htarget : ∀ r, (f r).facts.target = r.facts.target) (hhome : ∀ r, (f r).facts.home = r.facts.home)
    (horder : ∀ r, (f r).facts.order = r.facts.order)
    (hchildren : ∀ r, (f r).children = r.children) (huses : ∀ r, (f r).uses = r.uses)
    (i : AugmentId) : d.Alike (d.mapAugment i f) := by
  have haugment : ∀ {α : Type} (g : AugmentDraft → α), (∀ r, g (f r) = g r) → ∀ j,
      g ((d.mapAugment i f).augment j) = g (d.augment j) := by
    intro α g hg j
    rw [augment_mapAugment]
    split
    · exact hg _
    · rfl
  exact { Alike.refl hd with
    unfrozen := hd.mapAugment i f
    augments_size := Shelf.size_update _ _ _
    childrenOf := fun t => by
      cases t with
      | augment j => exact haugment AugmentDraft.children hchildren j
      | _ => rfl
    usesAt := fun t => by
      cases t with
      | augment j => exact haugment AugmentDraft.uses huses j
      | _ => rfl
    target := haugment (fun r => r.facts.target) htarget
    home := haugment (fun r => r.facts.home) hhome
    order := haugment (fun r => r.facts.order) horder }

/-- `d₁` is `d` with facts at the site that say more; the names are those that a module defines
besides. -/
structure Restated (names : List QName) (s : Site) (d d₁ : Draft) : Prop extends d.Alike d₁ where
  groupingsAt : ∀ t, d₁.groupingsAt t = d.groupingsAt t
  tops : ∀ i, (d₁.module i).augmentations = (d.module i).augmentations
  defined : ∀ i, ∀ q ∈ (d₁.module i).facts.definedNames, q ∈ (d.module i).facts.definedNames ∨
    Site.module i = s ∧ q ∈ names
  pristine : d.Pristine → d₁.Pristine

namespace Restated

variable {names : List QName}

theorem enlarges (h : Restated names s d d₁) (hd : d.Sound) (hm : ∀ q ∈ names, q.owner = m) :
    Enlarges m s d d₁ :=
  .of_alike hd h.toAlike (fun i _ => h.groupingsAt (.module i)) h.tops
    (fun t _ hg => .inl (h.groupingsAt t ▸ hg))
    (fun i q hq => (h.defined i q hq).imp_right fun h => ⟨h.1, hm q h.2⟩) h.pristine

variable (names)

theorem mapModule {f : ModuleFacts → ModuleFacts} (hd : d.Unfrozen)
    (hheading : ∀ r, (f r).heading = r.heading)
    (hdefined : ∀ r, ∀ q ∈ (f r).definedNames, q ∈ r.definedNames ∨ q ∈ names) (i : ModuleId) :
    Restated names (.module i) d (d.mapModule i fun r => { r with facts := f r.facts }) := by
  refine ⟨alike_mapModule hd (fun r => hheading r.facts) (by intro; rfl) (by intro; rfl) i, fun t => ?_,
    fun j => ?_, fun j q hq => ?_, fun hp => hp.mapModule i fun _ hg => .inl hg⟩
  · cases t with
    | module j =>
      show (Draft.module _ j).groupings = _
      rw [module_mapModule]
      split <;> rfl
    | _ => rfl
  · rw [module_mapModule]
    split <;> rfl
  · rw [module_mapModule] at hq
    split at hq
    · next hij => exact (hdefined _ q hq).imp_right fun hq' => ⟨by rw [hij.1], hq'⟩
    · exact .inl hq

theorem mapNode {f : NodeFacts → NodeFacts} (hd : d.Unfrozen)
    (hf : Harmless fun r => { r with facts := f r.facts })
    (hpristine : ∀ r, (f r).byUses = r.byUses ∧ (f r).augmenting = r.augmenting) (i : NodeId) :
    Restated names (.node i) d (d.mapNode i fun r => { r with facts := f r.facts }) := by
  refine ⟨hf.alike hd i, fun t => ?_, fun _ => rfl, fun _ _ => .inl,
    fun hp => hp.mapNode ?_ i fun _ hg => .inl hg⟩
  · cases t with
    | node j =>
      show (Draft.node _ j).groupings = _
      rw [node_mapNode]
      split <;> rfl
    | _ => rfl
  · intro r hr
    obtain ⟨hbyUses, haugmenting⟩ := hpristine r.facts
    exact ⟨hr.origin, hbyUses.trans hr.byUses, haugmenting.trans hr.augmenting, hr.augmentations⟩

theorem mapGrouping {f : GroupingFacts → GroupingFacts} (hd : d.Unfrozen)
    (hname : ∀ r, (f r).name = r.name) (hpath : ∀ r, (f r).path = r.path) (i : GroupingId) :
    Restated names (.grouping i) d (d.mapGrouping i fun r => { r with facts := f r.facts }) := by
  refine ⟨alike_mapGrouping hd (fun r => hname r.facts) (fun r => hpath r.facts) (by intro; rfl)
    (by intro; rfl) i, fun t => ?_, fun _ => rfl, fun _ _ => .inl,
    fun hp => hp.mapGrouping i fun _ hg => .inl hg⟩
  cases t with
  | grouping j =>
    show (Draft.grouping _ j).groupings = _
    rw [grouping_mapGrouping]
    split <;> rfl
  | _ => rfl

theorem mapAugment {f : AugmentFacts → AugmentFacts} (hd : d.Unfrozen)
    (htarget : ∀ r, (f r).target = r.target) (hhome : ∀ r, (f r).home = r.home)
    (horder : ∀ r, (f r).order = r.order) (i : AugmentId) :
    Restated names (.augment i) d (d.mapAugment i fun r => { r with facts := f r.facts }) := by
  refine ⟨alike_mapAugment hd (fun r => htarget r.facts) (fun r => hhome r.facts)
    (fun r => horder r.facts) (by intro; rfl) (by intro; rfl) i, fun t => ?_, fun _ => rfl,
    fun _ _ => .inl, fun hp => hp.mapAugment (f := fun r => { r with facts := f r.facts }) (fun _ => rfl) i⟩
  cases t <;> rfl

end Restated

end Draft

end YangSchema
