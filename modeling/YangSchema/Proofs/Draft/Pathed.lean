import YangSchema.Proofs.Draft.Copying

/-!
# Paths of places

A node that hangs below a module, a grouping or an augmentation has the path of its place: that of its
parent, and its own name after it (`Draft.Pathed`).  What hangs nowhere as yet may say anything: copies
are hung into one another before the first of them is attached, and attaching gives all of them their
paths (`Attached.pathed`).
-/

namespace YangSchema

namespace Draft

variable {d d₁ : Draft} {s x y : Site} {c i r : NodeId}

/-- The site is no node, or hangs somewhere below one that is none. -/
def Rooted (d : Draft) (x : Site) : Prop := ∃ root, (∀ i, root ≠ .node i) ∧ d.Under x root

/-- Nodes below what is no node have the paths of their places. -/
def Pathed (d : Draft) : Prop :=
  ∀ y, d.Rooted y → ∀ c ∈ d.childrenOf y, (d.node c).path = (d.pathOf y).child (d.node c).name

theorem Rooted.parent (h : d.Rooted (.node i)) : ∃ p, (d.node i).parent = some p ∧ d.Rooted p := by
  obtain ⟨root, hroot, hu⟩ := h
  cases hu with
  | refl => exact absurd rfl (hroot i)
  | up hp hu => exact ⟨_, hp, root, hroot, hu⟩

/-- What is above something rooted is rooted. -/
theorem Rooted.above (h : d.Rooted x) (hxy : d.Under x y) : d.Rooted y := by
  induction hxy with
  | refl => exact h
  | up hp _ ih =>
    obtain ⟨p, hp', hrooted⟩ := h.parent
    rw [hp] at hp'
    cases hp'
    exact ih hrooted

/-- What hangs nowhere is not rooted, and nothing below it is. -/
theorem not_rooted_of_under (hc : (d.node c).parent = none) (hx : d.Under x (.node c)) :
    ¬ d.Rooted x := by
  intro h
  obtain ⟨p, hp, -⟩ := (h.above hx).parent
  rw [hc] at hp
  cases hp

/-- Where every node has the parent that it had, or none, no new place is rooted. -/
theorem Rooted.of_parent (hparent : ∀ i p, (d₁.node i).parent = some p → (d.node i).parent = some p)
    (h : d₁.Rooted x) : d.Rooted x := by
  obtain ⟨root, hroot, hu⟩ := h
  refine ⟨root, hroot, ?_⟩
  clear hroot
  induction hu with
  | refl => exact .refl _
  | up hp _ ih => exact .up (hparent _ _ hp) ih

/-! ## Edits that give no paths -/

/-- Paths hold on as long as every rooted place was one, with the same names and paths. -/
theorem Pathed.of_links (h : d.Pathed) (hlink : ∀ y, d₁.Rooted y → ∀ c ∈ d₁.childrenOf y,
    d.Rooted y ∧ c ∈ d.childrenOf y ∧ (d₁.node c).path = (d.node c).path ∧
      (d₁.node c).name = (d.node c).name ∧ d₁.pathOf y = d.pathOf y) : d₁.Pathed := by
  intro y hy c hc
  obtain ⟨hy', hc', hpath, hname, hpathOf⟩ := hlink y hy c hc
  rw [hpath, hname, hpathOf]
  exact h y hy' c hc'

/-- Records that hold no nodes may be added. -/
theorem Pathed.of_same (h : d.Pathed) (hd : d.Sound)
    (hnode : ∀ i, i.index < d.nodes.size → (d₁.node i).facts = (d.node i).facts)
    (hparent : ∀ i, (d₁.node i).parent = (d.node i).parent)
    (hchildren : ∀ y, d₁.childrenOf y = d.childrenOf y)
    (hpathOf : ∀ y, d.HasSite y → d₁.pathOf y = d.pathOf y) : d₁.Pathed := by
  refine h.of_links fun y hy c hc => ?_
  rw [hchildren] at hc
  have hfacts := hnode c (hd.child_lt hc)
  exact ⟨hy.of_parent fun i p hp => hparent i ▸ hp, hc, congrArg NodeFacts.path hfacts,
    congrArg NodeFacts.name hfacts, hpathOf y (hasSite_of_mem_childrenOf hc)⟩

theorem Pathed.withNode (h : d.Pathed) (hd : d.Sound) {r : NodeDraft} (hc : r.children = [])
    (hp : r.parent = none) : (d.withNode r).Pathed := by
  refine h.of_same hd (fun i hi => ?_) (fun i => ?_) (childrenOf_withNode hc)
    fun y hy => (Extends.withNode d r).pathOf hy
  · rw [(Extends.withNode d r).node i hi]
  · rw [node_withNode]
    split
    · next hi => rw [hp, node_of_size_le (Nat.le_of_eq hi.symm)]; rfl
    · rfl

theorem Pathed.withAugment (h : d.Pathed) (hd : d.Sound) {r : AugmentDraft} (hc : r.children = []) :
    (d.withAugment r).Pathed :=
  h.of_same hd (fun _ _ => rfl) (fun _ => rfl) (childrenOf_withAugment hc)
    fun _ hy => (Extends.withAugment d r).pathOf hy

theorem Pathed.withUses (h : d.Pathed) (hd : d.Sound) (r : UsesDraft) : (d.withUses r).Pathed :=
  h.of_same hd (fun _ _ => rfl) (fun _ => rfl) (fun _ => rfl) fun _ _ => rfl

theorem pathOf_pushedUses (s : Site) (u : UsesId) (y : Site) :
    (d.pushedUses s u).pathOf y = d.pathOf y := by
  cases y with
  | module m => rfl
  | node i => show ((d.pushedUses s u).node i).path = _; rw [node_pushedUses]; rfl
  | grouping g => show ((d.pushedUses s u).grouping g).facts.path = _; rw [grouping_pushedUses]; rfl
  | augment a => show ((d.pushedUses s u).augment a).facts.target = _; rw [augment_pushedUses]; rfl

theorem Pathed.pushedUses (h : d.Pathed) (hd : d.Sound) (s : Site) (u : UsesId) :
    (d.pushedUses s u).Pathed := by
  refine h.of_same hd (fun i _ => ?_) (fun i => ?_) (fun y => childrenOf_pushedUses s y u)
    fun y _ => pathOf_pushedUses s u y
  · rw [node_pushedUses]
  · rw [node_pushedUses]

/-- A copy is hung into another one that hangs nowhere. -/
theorem Pathed.placed {copy : NodeId} (h : d.Pathed) (hc : c.index < d.nodes.size)
    (hcopy : (d.node copy).parent = none) (hne : copy ≠ c) :
    (d.placed (.node copy) c).Pathed := by
  have hnone : ((d.placed (.node copy) c).node copy).parent = none := by
    rw [node_placed hc, if_neg hne]
    exact hcopy
  have hrooted : ∀ {y}, (d.placed (.node copy) c).Rooted y → d.Rooted y := by
    rintro y ⟨root, hroot, hu⟩
    refine ⟨root, hroot, ?_⟩
    induction hu with
    | refl => exact .refl _
    | @up i p _ hp hu ih =>
      by_cases hi : i = c
      · -- above the node is the copy, and nothing is above that
        rw [node_placed hc, if_pos hi] at hp
        cases hp
        exact absurd ⟨_, hroot, hu⟩ (not_rooted_of_under hnone (.refl _))
      · rw [node_placed hc, if_neg hi] at hp
        exact .up hp (ih hroot)
  refine h.of_links fun y hy x hx => ?_
  have hyc : y ≠ .node copy := by
    rintro rfl
    exact not_rooted_of_under hnone (.refl _) hy
  rw [childrenOf_placed_of_ne hyc] at hx
  refine ⟨hrooted hy, hx, ?_, ?_, ?_⟩
  · rw [node_placed hc]
    rfl
  · rw [node_placed hc]
    rfl
  · cases y with
    | module m => rfl
    | node i => show ((d.placed _ c).node i).path = _; rw [node_placed hc]; rfl
    | grouping g => rfl
    | augment a => rfl

/-! ## Attaching -/

section Attached

variable (h : d.Attached s c r d₁) (hd : d.Sound)
include h

/-- Of a site that was there only the path can have changed. -/
theorem Attached.pathOf (hy : d.HasSite y) (hout : ¬ d.Under y (.node c)) :
    d₁.pathOf y = d.pathOf y := by
  cases y with
  | module m => rfl
  | node i => exact h.path_outside i hy hout
  | grouping g => show (d₁.grouping g).facts.path = _; rw [h.grouping]; rfl
  | augment a => show (d₁.augment a).facts.target = _; rw [h.augment]; rfl

include hd

/-- Outside of what is attached, places are rooted only if they were. -/
theorem Attached.rooted (hx : d.HasSite x) (hout : ¬ d.Under x (.node c)) (hrooted : d₁.Rooted x) :
    d.Rooted x := by
  obtain ⟨root, hroot, hu⟩ := hrooted
  refine ⟨root, hroot, ?_⟩
  induction hu with
  | refl => exact .refl _
  | @up i p _ hp _ ih =>
    have hic : i ≠ c := by
      rintro rfl
      exact hout (.refl _)
    rw [h.parent_of_ne hx hic] at hp
    exact .up hp (ih (hd.hasSite_parent hp) (fun hu => hout (.up hp hu)) hroot)

/-- Below the node that is attached the path of a child goes on from that of its parent. -/
theorem Attached.path_child_inside {j : NodeId} (hj : d.Under (.node j) (.node c))
    (hi : i ∈ d.childrenOf (.node j)) : (d₁.node i).path = (d₁.node j).path.child (d.node i).name := by
  obtain ⟨p, hp⟩ := Leads.exists_of_under hd hj
  rw [h.path_inside p j hp, h.path_inside _ i (hp.snoc hi), SchemaPath.child, SchemaPath.down,
    SchemaPath.down, List.append_assoc]
  congr 2
  split <;> rfl

/-- Attaching a node that hangs nowhere gives paths to all that is below it. -/
theorem Attached.pathed (hpathed : d.Pathed) (hc : (d.node c).parent = none) (hlt : c.index < d.nodes.size)
    (hs : d.HasSite s) (hsc : ¬ d.Under s (.node c)) : d₁.Pathed := by
  -- a place that was there, away from the new child
  have hold : ∀ y, d₁.Rooted y → ∀ i ∈ d.childrenOf y,
      (d₁.node i).path = (d₁.pathOf y).child (d₁.node i).name := by
    intro y hy i hi
    have hys := hasSite_of_mem_childrenOf hi
    rw [h.name (hd.child_lt hi)]
    by_cases hyc : d.Under y (.node c)
    · cases y with
      | node j => exact h.path_child_inside hd hyc hi
      | _ => exact absurd (hyc.eq_of_root (by simp)) (by simp)
    · have hic : ¬ d.Under (.node i) (.node c) := by
        intro hic
        cases hic with
        | refl => exact absurd ((hd.parent_eq hi).symm.trans hc) (by simp)
        | up hp hu =>
          rw [hd.parent_eq hi] at hp
          cases hp
          exact hyc hu
      rw [h.path_outside i (hd.child_lt hi) hic, h.pathOf hys hyc]
      exact hpathed y (h.rooted hd hys hyc hy) i hi
  intro y hy i hi
  rcases h.mem_childrenOf hi with hi | ⟨rfl, rfl⟩ | ⟨rfl, rfl, hw⟩
  · exact hold y hy i hi
  · cases hw : d.wraps y c with
    | false =>
      obtain ⟨rfl, -⟩ := h.direct hw
      rw [h.path_self hlt (h.pathOf hs hsc), hw]
      rfl
    | true => rw [h.path_wrapper hw, h.pathOf hs hsc]
  · rw [h.path_self hlt (h.pathOf hs hsc), if_pos hw]

end Attached

end Draft

end YangSchema
