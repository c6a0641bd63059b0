import YangSchema.Proofs.Draft.Showing
import YangSchema.Proofs.Inference.Attempt

/-!
# What an expansion makes of each record

Copying a body to a site leaves the records that were there alone, but for the lists of children and
uses of the site.  A refine changes the record that its target finds, and an augmentation inside a
uses adds to the one that its target finds (`NodeDraft.Gains`).  So the record of each node after an
expansion can be told from the draft in which the body was copied (`record_of_refined`), and for a
node that was there before also from the draft before the expansion (`UsesTask.Expanded.record`).
-/

namespace YangSchema

open Draft

/-- The record `r'` is `r` with more entries in its lists. -/
def NodeDraft.Gains (r r' : NodeDraft) : Prop :=
  ∃ children uses unknown augmentations, r' = { r with
    children := r.children ++ children
    uses := r.uses ++ uses
    augmentations := r.augmentations ++ augmentations
    facts := { r.facts with unknown := r.facts.unknown ++ unknown } }

namespace NodeDraft.Gains

variable {r r' r'' : NodeDraft}

theorem refl (r : NodeDraft) : r.Gains r := ⟨[], [], [], [], by simp⟩

theorem trans (h : r.Gains r') (h' : r'.Gains r'') : r.Gains r'' := by
  obtain ⟨c, u, k, a, rfl⟩ := h
  obtain ⟨c', u', k', a', rfl⟩ := h'
  exact ⟨c ++ c', u ++ u', k ++ k', a ++ a', by simp⟩

end NodeDraft.Gains

namespace Draft

variable {style : CopyStyle} {d d₁ d₂ d' : Draft} {s : Site} {body : List NodeId} {i n : NodeId}
  {a : AugmentId} {p : List QName}

/-! ## Targets -/

/-- A target finds a node that was there just as before. -/
theorem Keeps.findDescendant_old (h : d.Keeps d₁) (hd : d.Sound) (hd₁ : d₁.Sound)
    (hi : i.index < d.nodes.size) :
    d₁.findDescendant s p = some i ↔ d.findDescendant s p = some i := by
  rw [findDescendant_eq_some, findDescendant_eq_some]
  refine and_congr_right fun _ => ⟨fun hp => ?_, h.descend hd⟩
  exact reaches_true.1 (h.reaches_old hd hd₁ (reaches_true.2 hp) hi)

/-- A target is below the site. -/
theorem Sound.findDescendant_ne (hd : d.Sound) (p : List QName) :
    d.findDescendant (.node i) p ≠ some i := by
  intro h
  obtain ⟨hne, hp⟩ := findDescendant_eq_some.1 h
  exact hne ((Leads.of_descend hp).path_unique hd (.nil _))

theorem Keeps.refinesOf_old (h : d.Keeps d₁) (hd : d.Sound) (hd₁ : d₁.Sound)
    (hi : i.index < d.nodes.size) (l : List RefineTask) :
    d₁.refinesOf s l i = d.refinesOf s l i := by
  unfold refinesOf
  congr 2
  funext t
  rw [Bool.eq_iff_iff, beq_iff_eq, beq_iff_eq]
  exact h.findDescendant_old hd hd₁ hi

/-! ## Copied bodies -/

/-- Copying a body leaves all other records alone. -/
theorem Grafted.node_of_ne (hg : Grafted style s body d d₁) (hu : UsesPut s d₁ d₂)
    (hi : i.index < d.nodes.size) (hne : Site.node i ≠ s) : d₂.node i = d.node i := by
  have hk := hg.changes.keeps
  have hi₁ : i.index < d₁.nodes.size := Nat.lt_of_lt_of_le hi hk.nodes_le
  have huses : d₁.usesAt (.node i) = (d.node i).uses := by
    show (d₁.node i).uses = _
    rw [hg.record i hi]
  rw [hu.record i hi₁, hu.uses_of_ne (.node i) hi₁ hne, huses, hg.record i hi,
    hg.children_of_ne (.node i) hi hne]
  rfl

/-- The site gets more children and uses. -/
theorem Grafted.node_self (hg : Grafted style (.node i) body d d₁) (hu : UsesPut (.node i) d₁ d₂)
    (hi : i.index < d.nodes.size) : ∃ children uses, d₂.node i = { d.node i with
      children := (d.node i).children ++ children
      uses := (d.node i).uses ++ uses } := by
  have hi₁ : i.index < d₁.nodes.size := Nat.lt_of_lt_of_le hi hg.changes.keeps.nodes_le
  have huses : d₁.usesAt (.node i) = (d.node i).uses := by
    show (d₁.node i).uses = _
    rw [hg.record i hi]
  obtain ⟨news, hnews, -⟩ := hg.children_self
  obtain ⟨more, hmore⟩ := hu.uses_self
  refine ⟨news, more, ?_⟩
  rw [hu.record i hi₁, ← hmore, huses, hg.record i hi, hnews]
  rfl

/-! ## Merged augmentations -/

theorem Merged.node_of_ne (h : Merged a n d d') (hi : i.index < d.nodes.size) (hne : i ≠ n) :
    d'.node i = d.node i := by
  obtain ⟨d₁, d₂, hg, hu, rfl⟩ := h.graft
  rw [node_mapNode_of_ne (Ne.symm hne)]
  exact hg.node_of_ne hu hi fun h => hne (Site.node.inj h)

theorem Merged.gains (h : Merged a n d d') (hn : n.index < d.nodes.size) :
    (d.node n).Gains (d'.node n) := by
  obtain ⟨d₁, d₂, hg, hu, rfl⟩ := h.graft
  obtain ⟨children, uses, hnode⟩ := hg.node_self hu hn
  have hlt : n.index < d₂.nodes.size :=
    Nat.lt_of_lt_of_le hn (Nat.le_trans hg.changes.keeps.nodes_le hu.keeps.nodes_le)
  refine ⟨children, uses, (d.augment a).facts.unknown, [a], ?_⟩
  rw [node_mapNode, if_pos ⟨rfl, hlt⟩, hnode]
  rfl

/-- Merging adds to the records that the targets find, and changes no other record. -/
theorem MergedAll.record {l : List AugmentId} (hd : d.Sound) (h : MergedAll s l d d')
    (hl : ∀ a ∈ l, a.index < d.augments.size) (hi : i.index < d.nodes.size) :
    (d.node i).Gains (d'.node i) ∧
      ((∀ a ∈ l, d.findDescendant s (d.augment a).facts.target.steps ≠ some i) →
        d'.node i = d.node i) := by
  induction h with
  | nil => exact ⟨.refl _, fun _ => rfl⟩
  | @cons a l n d d₁ d₂ hn hm _ ih =>
    have hch := hm.changes hd
    have hi₁ : i.index < d₁.nodes.size := Nat.lt_of_lt_of_le hi hch.keeps.nodes_le
    obtain ⟨hgains, hsame⟩ := ih hch.sound (fun b hb => Nat.lt_of_lt_of_le
      (hl b (List.mem_cons_of_mem a hb)) hch.keeps.augments_le) hi₁
    by_cases hin : i = n
    · subst hin
      exact ⟨(hm.gains hi).trans hgains, fun hno => absurd hn (hno a List.mem_cons_self)⟩
    · have hnode := hm.node_of_ne hi hin
      rw [hnode] at hgains hsame
      refine ⟨hgains, fun hno => hsame fun b hb hfound => ?_⟩
      rw [hch.keeps.target b (hl b (List.mem_cons_of_mem a hb))] at hfound
      exact hno b (List.mem_cons_of_mem a hb)
        ((hch.keeps.findDescendant_old hd hch.sound hi).1 hfound)

/-- What refines and merges make of the records of a draft. -/
theorem record_of_refined {refines : List RefineTask} {l : List AugmentId}
    (hr : Refined s refines d d₁) (hm : MergedAll s l d₁ d') (hl : ∀ a ∈ l, a.index < d.augments.size)
    (hi : i.index < d.nodes.size) :
    ((Refinement.joint (d.refinesOf s refines i)).apply (d.node i)).Gains (d'.node i) ∧
      ((∀ a ∈ l, d.findDescendant s (d.augment a).facts.target.steps ≠ some i) →
        d'.node i = (Refinement.joint (d.refinesOf s refines i)).apply (d.node i)) := by
  have hi₁ : i.index < d₁.nodes.size := Nat.lt_of_lt_of_le hi hr.keeps.nodes_le
  obtain ⟨hgains, hsame⟩ := hm.record hr.sound
    (fun a ha => Nat.lt_of_lt_of_le (hl a ha) hr.keeps.augments_le) hi₁
  rw [hr.record i] at hgains hsame
  refine ⟨hgains, fun hno => hsame fun a ha hfound => hno a ha ?_⟩
  rwa [hr.alike.findDescendant, hr.alike.target] at hfound

end Draft

/-! ## Expansions -/

/-- The targets of the refines and augmentations in a uses. -/
def UsesTask.targets (t : UsesTask) (d : Draft) : List SchemaPath :=
  t.refines.map RefineTask.target ++
    (d.usesOf t.uses).augmentations.map fun a => (d.augment a).facts.target

theorem Draft.alike_marked {d : Draft} (hd : d.Unfrozen) (u : UsesId) (p : SchemaPath) :
    d.Alike (d.marked u p) := by
  refine alike_mapUses ?_ hd u
  exact fun _ => rfl

namespace UsesTask.Expanded

variable {t : UsesTask} {g : GroupingId} {d d' : Draft} {i : NodeId}

/-- The record of the site. -/
theorem record_self (hd : d.Sound) (h : t.Expanded g d d') (hi : i.index < d.nodes.size)
    (hsite : t.site = .node i) : ∃ children uses, d'.node i = { d.node i with
      children := (d.node i).children ++ children
      uses := (d.node i).uses ++ uses } := by
  obtain ⟨d₁, d₂, d₃, hg, hu, hr, hm⟩ := h.graft
  have hq := quiet_marked hd t.site t.uses (d.grouping g).facts.path
  rw [hsite] at hg hu hr hm hq
  have hch := (hq.toChanges.trans hd hg.changes).trans hd hu.toChanges
  have hi₂ : i.index < d₂.nodes.size := Nat.lt_of_lt_of_le hi hch.keeps.nodes_le
  have hl : ∀ a ∈ (d.usesOf t.uses).augmentations, a.index < d₂.augments.size := fun a ha =>
    Nat.lt_of_lt_of_le (hd.augment_lt t.uses a ha) hch.keeps.augments_le
  -- no target finds the site
  have hrecord := (record_of_refined hr hm hl hi₂).2 fun a _ => hu.sound.findDescendant_ne _
  have hnone : d₂.refinesOf (.node i) t.refines i = [] := by
    unfold refinesOf
    rw [List.filter_eq_nil_iff.2 fun r _ => ?_, List.map_nil]
    simpa using hu.sound.findDescendant_ne r.target.steps
  rw [hnone, Refinement.joint_nil_apply] at hrecord
  rw [hrecord]
  exact hg.node_self hu hi

/-- The record of any other node that was there before. -/
theorem record (hd : d.Sound) (h : t.Expanded g d d') (hi : i.index < d.nodes.size)
    (hsite : t.site ≠ .node i) :
    ((Refinement.joint (d.refinesOf t.site t.refines i)).apply (d.node i)).Gains (d'.node i) ∧
      ((∀ a ∈ (d.usesOf t.uses).augmentations,
          d.findDescendant t.site (d.augment a).facts.target.steps ≠ some i) →
        d'.node i = (Refinement.joint (d.refinesOf t.site t.refines i)).apply (d.node i)) := by
  obtain ⟨d₁, d₂, d₃, hg, hu, hr, hm⟩ := h.graft
  have hq := quiet_marked hd t.site t.uses (d.grouping g).facts.path
  have hch := (hq.toChanges.trans hd hg.changes).trans hd hu.toChanges
  have hi₂ : i.index < d₂.nodes.size := Nat.lt_of_lt_of_le hi hch.keeps.nodes_le
  have haug : ∀ a ∈ (d.usesOf t.uses).augmentations, a.index < d.augments.size :=
    hd.augment_lt t.uses
  obtain ⟨hgains, hsame⟩ := record_of_refined hr hm
    (fun a ha => Nat.lt_of_lt_of_le (haug a ha) hch.keeps.augments_le) hi₂
  have hnode : d₂.node i = d.node i := hg.node_of_ne hu hi (Ne.symm hsite)
  rw [hch.keeps.refinesOf_old hd hu.sound hi, hnode] at hgains hsame
  refine ⟨hgains, fun hno => hsame fun a ha hfound => hno a ha ?_⟩
  rw [hch.keeps.target a (haug a ha)] at hfound
  exact (hch.keeps.findDescendant_old hd hu.sound hi).1 hfound

end UsesTask.Expanded

end YangSchema
