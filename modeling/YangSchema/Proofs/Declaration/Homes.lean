import YangSchema.Proofs.Declaration.Enlarging

/-!
# The homes of definitions

Every site belongs to a module: a module to itself, any other site to the module that it is named in
(`Draft.homeAt`).  What is declared at a site has the same home as the site (`Draft.Homely`), whichever
source the declaration is in.
-/

namespace YangSchema

namespace Draft

variable {d d₁ : Draft} {s x : Site} {m : ModuleIdentity}

/-- The module that a site belongs to. -/
def homeAt (d : Draft) : Site → ModuleIdentity
  | .module i => (d.module i).facts.identity
  | .node i => (d.node i).name.owner
  | .grouping g => (d.grouping g).facts.name.owner
  | .augment a => (d.augment a).facts.home

theorem Keeps.homeAt (h : d.Keeps d₁) (hs : d.HasSite s) : d₁.homeAt s = d.homeAt s := by
  cases s with
  | module i => exact h.identity i hs
  | node i => exact congrArg QName.owner (h.name i hs)
  | grouping g => exact congrArg QName.owner (h.grouping g hs)
  | augment a => exact h.home a hs

theorem Alike.homeAt (h : d.Alike d₁) (s : Site) : d₁.homeAt s = d.homeAt s := by
  cases s with
  | module i => exact h.identity i
  | node i => exact congrArg QName.owner (h.name i)
  | grouping g => exact congrArg QName.owner (h.grouping g)
  | augment a => exact h.home a

/-- Everything has the home of the place where it was declared. -/
structure Homely (d : Draft) : Prop where
  children : ∀ s, ∀ c ∈ d.childrenOf s, d.homeAt (.node c) = d.homeAt s
  groupings : ∀ s, ∀ g ∈ d.groupingsAt s, d.homeAt (.grouping g) = d.homeAt s
  inner : ∀ s, ∀ u ∈ d.usesAt s, ∀ a ∈ (d.usesOf u).augmentations, d.homeAt (.augment a) = d.homeAt s
  tops : ∀ i, ∀ a ∈ (d.module i).augmentations,
    a.index < d.augments.size ∧ d.homeAt (.augment a) = d.homeAt (.module i)
  defined : ∀ i, ∀ q ∈ (d.module i).facts.definedNames, q.owner = d.homeAt (.module i)

theorem Pristine.grouping_lt (h : d.Pristine) {g : GroupingId} (hg : g ∈ d.groupingsAt s) :
    g.index < d.groupings.size := by
  cases s with
  | module i => exact h.top i g hg
  | node i => exact h.listed i g hg
  | grouping i => exact (h.nested i g hg).2
  | augment a => cases hg

theorem hasSite_of_mem_groupingsAt {g : GroupingId} (hg : g ∈ d.groupingsAt s) : d.HasSite s := by
  refine Classical.byContradiction fun hs => ?_
  cases s with
  | module i =>
    change g ∈ (d.module i).groupings at hg
    rw [module_of_size_le (Nat.not_lt.1 hs)] at hg
    cases hg
  | node i =>
    change g ∈ (d.node i).groupings at hg
    rw [node_of_size_le (Nat.not_lt.1 hs)] at hg
    cases hg
  | grouping i =>
    change g ∈ (d.grouping i).groupings at hg
    rw [grouping_of_size_le (Nat.not_lt.1 hs)] at hg
    cases hg
  | augment a => cases hg

theorem hasSite_of_mem_definedNames {i : ModuleId} {q : QName}
    (hq : q ∈ (d.module i).facts.definedNames) : d.HasSite (.module i) := by
  refine Classical.byContradiction fun hi => ?_
  rw [module_of_size_le (Nat.not_lt.1 hi)] at hq
  cases hq

namespace Enlarges

variable (h : d.Enlarges m s d₁) (hs : d.homeAt s = m)
include h

/-- All new sites belong to the module. -/
theorem homeAt_new (hx : ¬ d.HasSite x) (hx₁ : d₁.HasSite x) : d₁.homeAt x = m := by
  cases x with
  | module i =>
    have hlt : i.index < d.modules.size := h.modules_size ▸ hx₁
    exact absurd hlt hx
  | node i => exact h.names i (Nat.not_lt.1 hx) hx₁
  | grouping g => exact h.grouping_names g (Nat.not_lt.1 hx) hx₁
  | augment a => exact h.homes a (Nat.not_lt.1 hx) hx₁

/-- New nodes hang at the site, or at new places. -/
theorem changed_of_child (hd : d.Sound) {x : Site} {c : NodeId}
    (hc : c ∈ d₁.childrenOf x) (hnew : ¬ c.index < d.nodes.size) : x = s ∨ ¬ d.HasSite x := by
  refine Classical.byContradiction fun hx => ?_
  simp only [not_or, not_not] at hx
  rw [h.childrenOf x hx.2 hx.1] at hc
  exact hnew (hd.child_lt hc)

/-- So do new uses. -/
theorem changed_of_uses (hd : d.Sound) {x : Site} {u : UsesId}
    (hu : u ∈ d₁.usesAt x) (hnew : ¬ u.index < d.uses.size) : x = s ∨ ¬ d.HasSite x := by
  refine Classical.byContradiction fun hx => ?_
  simp only [not_or, not_not] at hx
  rw [h.usesAt x hx.2 hx.1] at hu
  exact hnew (hd.uses_lt x u hu)

/-- An old uses stands where it stood. -/
theorem mem_usesAt {x : Site} {u : UsesId} (hu : u ∈ d₁.usesAt x)
    (hlt : u.index < d.uses.size) : u ∈ d.usesAt x := by
  rcases h.fresh _ _ (contains_site.2 (.inr ⟨u, hu, rfl⟩)) with hc | hnew
  · rcases contains_site.1 hc with ⟨c, -, heq⟩ | ⟨v, hv, heq⟩
    · cases heq
    · cases heq
      exact hv
  · exact absurd hlt hnew

include hs

/-- So does every site that something was put into. -/
theorem homeAt_of_changed (hx : x = s ∨ ¬ d.HasSite x) (hx₁ : d₁.HasSite x) : d₁.homeAt x = m := by
  by_cases hold : d.HasSite x
  · obtain rfl := hx.resolve_right fun hnew => hnew hold
    rw [h.keeps.homeAt hold, hs]
  · exact h.homeAt_new hold hx₁

end Enlarges

theorem Homely.enlarges (h : d.Homely) (hpristine : d.Pristine) (hd : d.Sound) (hs : d.homeAt s = m)
    (he : d.Enlarges m s d₁) : d₁.Homely := by
  have hk := he.keeps
  refine ⟨fun x c hc => ?_, fun x g hg => ?_, fun x u hu a ha => ?_, fun i a ha => ?_, fun i q hq => ?_⟩
  · have hx₁ := hasSite_of_mem_childrenOf hc
    by_cases hlt : c.index < d.nodes.size
    · have hold := hk.mem_childrenOf hd he.sound hc hlt
      rw [hk.homeAt (s := .node c) hlt, hk.homeAt (hasSite_of_mem_childrenOf hold)]
      exact h.children x c hold
    · rw [he.homeAt_of_changed hs (he.changed_of_child hd hc hlt) hx₁]
      exact he.names c (Nat.not_lt.1 hlt) (he.sound.child_lt hc)
  · have hx₁ := hasSite_of_mem_groupingsAt hg
    rcases he.listed x g hg with hold | ⟨hx, -, hname⟩
    · rw [hk.homeAt (s := .grouping g) (hpristine.grouping_lt hold),
        hk.homeAt (hasSite_of_mem_groupingsAt hold)]
      exact h.groupings x g hold
    · rw [he.homeAt_of_changed hs hx hx₁]
      exact hname
  · have hx₁ := hasSite_of_mem_usesAt hu
    by_cases hlt : u.index < d.uses.size
    · rw [he.augmentations u hlt] at ha
      have hold := he.mem_usesAt hu hlt
      rw [hk.homeAt (s := .augment a) (hd.augment_lt u a ha), hk.homeAt (hasSite_of_mem_usesAt hold)]
      exact h.inner x u hold a ha
    · have hnew : ¬ d.HasSite (.augment a) := by
        rcases he.fresh _ _ (contains_uses.2 ⟨a, ha, rfl⟩) with hc | hnew
        · exact absurd (hasItem_of_contains hc) hlt
        · exact hnew
      rw [he.homeAt_of_changed hs (he.changed_of_uses hd hu hlt) hx₁]
      exact he.homeAt_new hnew (he.sound.augment_lt u a ha)
  · rw [he.tops] at ha
    have hi : d.HasSite (.module i) := by
      refine Classical.byContradiction fun hi => ?_
      rw [module_of_size_le (Nat.not_lt.1 hi)] at ha
      cases ha
    obtain ⟨hlt, hhome⟩ := h.tops i a ha
    rw [hk.homeAt (s := .augment a) hlt, hk.homeAt hi]
    exact ⟨Nat.lt_of_lt_of_le hlt hk.augments_le, hhome⟩
  · rcases he.defined i q hq with hold | ⟨hi, hq'⟩
    · rw [hk.homeAt (hasSite_of_mem_definedNames hold)]
      exact h.defined i q hold
    · rw [he.homeAt_of_changed hs hi (hasSite_of_mem_definedNames hq), hq']

/-- Records that say more are as homely, if what they say more is of their modules. -/
theorem Homely.alike (h : d.Homely) (ha : d.Alike d₁)
    (hgroupings : ∀ t, d₁.groupingsAt t = d.groupingsAt t)
    (htops : ∀ i, ∀ a ∈ (d₁.module i).augmentations, a ∈ (d.module i).augmentations ∨
      a.index < d.augments.size ∧ d.homeAt (.augment a) = d.homeAt (.module i))
    (hdefined : ∀ i, ∀ q ∈ (d₁.module i).facts.definedNames, q ∈ (d.module i).facts.definedNames ∨
      q.owner = d.homeAt (.module i)) : d₁.Homely := by
  refine ⟨fun x c hc => ?_, fun x g hg => ?_, fun x u hu a hau => ?_, fun i a hai => ?_,
    fun i q hq => ?_⟩
  all_goals simp only [ha.homeAt, ha.augments_size]
  · rw [ha.childrenOf] at hc
    exact h.children x c hc
  · rw [hgroupings] at hg
    exact h.groupings x g hg
  · rw [ha.usesAt] at hu
    rw [ha.augmentations] at hau
    exact h.inner x u hu a hau
  · exact (htops i a hai).elim (h.tops i a) id
  · exact (hdefined i q hq).elim (h.defined i q) id

/-- A module lists one augmentation more that belongs to it. -/
theorem Homely.listAugment (h : d.Homely) (hd : d.Unfrozen) (i : ModuleId) {a : AugmentId}
    (hlt : a.index < d.augments.size) (ha : d.homeAt (.augment a) = d.homeAt (.module i)) :
    (d.mapModule i fun r => { r with augmentations := r.augmentations ++ [a] }).Homely := by
  refine h.alike (alike_mapModule (f := fun r => { r with augmentations := r.augmentations ++ [a] }) hd
    (by intro; rfl) (by intro; rfl) (by intro; rfl) i) (fun t => ?_) (fun j b hb => ?_)
    fun j q hq => .inl ?_
  · cases t with
    | module j =>
      show (Draft.module _ j).groupings = _
      rw [module_mapModule]
      split <;> rfl
    | _ => rfl
  · rw [module_mapModule] at hb
    split at hb
    · next hij =>
      obtain ⟨rfl, -⟩ := hij
      refine (List.mem_append.1 hb).imp_right fun hb => ?_
      rw [List.mem_singleton.1 hb]
      exact ⟨hlt, ha⟩
    · exact .inl hb
  · rw [module_mapModule] at hq
    split at hq
    · exact hq
    · exact hq

theorem Homely.empty : Homely {} where
  children s c hc := by
    rw [childrenOf_of_not_hasSite (by cases s <;> exact Nat.not_lt_zero _)] at hc
    cases hc
  groupings s g hg := by
    have hs := hasSite_of_mem_groupingsAt hg
    cases s <;> exact absurd hs (Nat.not_lt_zero _)
  inner s u hu := by
    rw [usesAt_of_not_hasSite (by cases s <;> exact Nat.not_lt_zero _)] at hu
    cases hu
  tops i a ha := by
    rw [module_of_size_le (Nat.zero_le _)] at ha
    cases ha
  defined i q hq := by
    rw [module_of_size_le (Nat.zero_le _)] at hq
    cases hq

/-- Below a site everything belongs to the module of the site. -/
theorem Homely.under (h : d.Homely) (hd : d.Sound) (hx : d.Under x s) : d.homeAt x = d.homeAt s := by
  induction hx with
  | refl => rfl
  | @up i p _ hp _ ih => rw [h.children p i ((hd.parent_iff p i).2 hp), ih]

end Draft

end YangSchema
