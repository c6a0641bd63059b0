import YangSchema.Proofs.Draft.Grafting

/-!
# Pristine drafts

Before the inference starts nothing was copied and nothing was merged: no definition has an origin, no
node is marked as a copy.  The groupings that are listed anywhere are there, and a grouping comes
before those that are defined in it.  Every edit of a declaration keeps this; there is one lemma for
each of them.
-/

namespace YangSchema

/-- The node is no copy, and nothing was merged into it. -/
structure NodeDraft.Pristine (r : NodeDraft) : Prop where
  origin : r.origin = none
  byUses : r.facts.byUses = false
  augmenting : r.facts.augmenting = false
  augmentations : r.augmentations = []

namespace Draft

variable {d d₁ : Draft} {s : Site}

structure Pristine (d : Draft) : Prop where
  nodes : ∀ i, (d.node i).Pristine
  augments : ∀ a, (d.augment a).origin = none
  listed : ∀ i, ∀ g ∈ (d.node i).groupings, g.index < d.groupings.size
  nested : ∀ h, ∀ g ∈ (d.grouping h).groupings, h.index < g.index ∧ g.index < d.groupings.size
  top : ∀ m, ∀ g ∈ (d.module m).groupings, g.index < d.groupings.size

namespace Pristine

theorem empty : Pristine {} where
  nodes _ := ⟨rfl, rfl, rfl, rfl⟩
  augments _ := rfl
  listed _ _ h := by cases h
  nested _ _ h := by cases h
  top _ _ h := by cases h

variable (h : d.Pristine)
include h

/-! ## New records -/

theorem withNode {r : NodeDraft} (hr : r.Pristine) (hg : r.groupings = []) :
    (d.withNode r).Pristine where
  nodes i := by
    rw [node_withNode]
    split
    · exact hr
    · exact h.nodes i
  augments := h.augments
  listed i g hi := by
    rw [node_withNode] at hi
    split at hi
    · rw [hg] at hi
      cases hi
    · exact h.listed i g hi
  nested := h.nested
  top := h.top

theorem withGrouping {r : GroupingDraft} (hr : r.groupings = []) : (d.withGrouping r).Pristine := by
  have hsize : d.groupings.size ≤ (d.withGrouping r).groupings.size := Shelf.size_le_size_push _ _
  refine ⟨h.nodes, h.augments, fun i g hi => Nat.lt_of_lt_of_le (h.listed i g hi) hsize,
    fun i g hi => ?_, fun m g hm => Nat.lt_of_lt_of_le (h.top m g hm) hsize⟩
  rw [grouping_withGrouping] at hi
  split at hi
  · rw [hr] at hi
    cases hi
  · obtain ⟨hlt, hg⟩ := h.nested i g hi
    exact ⟨hlt, Nat.lt_of_lt_of_le hg hsize⟩

theorem withAugment {r : AugmentDraft} (hr : r.origin = none) : (d.withAugment r).Pristine where
  nodes := h.nodes
  augments a := by
    rw [augment_withAugment]
    split
    · exact hr
    · exact h.augments a
  listed := h.listed
  nested := h.nested
  top := h.top

theorem withModule {r : ModuleDraft} (hr : r.groupings = []) : (d.withModule r).Pristine where
  nodes := h.nodes
  augments := h.augments
  listed := h.listed
  nested := h.nested
  top m g hm := by
    rw [module_withModule] at hm
    split at hm
    · rw [hr] at hm
      cases hm
    · exact h.top m g hm

theorem withUses (r : UsesDraft) : (d.withUses r).Pristine :=
  ⟨h.nodes, h.augments, h.listed, h.nested, h.top⟩

/-! ## Changes of records -/

theorem mapNode {f : NodeDraft → NodeDraft} (hf : ∀ r, r.Pristine → (f r).Pristine) (n : NodeId)
    (hg : ∀ g ∈ (f (d.node n)).groupings, g ∈ (d.node n).groupings ∨ g.index < d.groupings.size) :
    (d.mapNode n f).Pristine where
  nodes i := by
    rw [node_mapNode]
    split
    · exact hf _ (h.nodes i)
    · exact h.nodes i
  augments := h.augments
  listed i g hi := by
    rw [node_mapNode] at hi
    split at hi
    · next hn =>
      rw [← hn.1] at hi
      exact (hg g hi).elim (h.listed n g) id
    · exact h.listed i g hi
  nested := h.nested
  top := h.top

theorem mapGrouping {f : GroupingDraft → GroupingDraft} (i : GroupingId)
    (hg : ∀ g ∈ (f (d.grouping i)).groupings, g ∈ (d.grouping i).groupings ∨
      i.index < g.index ∧ g.index < d.groupings.size) : (d.mapGrouping i f).Pristine := by
  have hsize : (d.mapGrouping i f).groupings.size = d.groupings.size := Shelf.size_update _ _ _
  refine ⟨h.nodes, h.augments, fun j g hj => hsize ▸ h.listed j g hj, fun j g hj => ?_,
    fun m g hm => hsize ▸ h.top m g hm⟩
  rw [hsize]
  rw [grouping_mapGrouping] at hj
  split at hj
  · next hi =>
    obtain ⟨rfl, -⟩ := hi
    exact (hg g hj).elim (h.nested i g) id
  · exact h.nested j g hj

theorem mapAugment {f : AugmentDraft → AugmentDraft} (hf : ∀ r, (f r).origin = r.origin)
    (a : AugmentId) : (d.mapAugment a f).Pristine where
  nodes := h.nodes
  augments b := by
    rw [augment_mapAugment]
    split
    · rw [hf]
      exact h.augments b
    · exact h.augments b
  listed := h.listed
  nested := h.nested
  top := h.top

theorem mapModule {f : ModuleDraft → ModuleDraft} (m : ModuleId)
    (hg : ∀ g ∈ (f (d.module m)).groupings, g ∈ (d.module m).groupings ∨
      g.index < d.groupings.size) : (d.mapModule m f).Pristine where
  nodes := h.nodes
  augments := h.augments
  listed := h.listed
  nested := h.nested
  top j g hj := by
    rw [module_mapModule] at hj
    split at hj
    · next hm =>
      obtain ⟨rfl, -⟩ := hm
      exact (hg g hj).elim (h.top m g) id
    · exact h.top j g hj

theorem mapUses (u : UsesId) (f : UsesDraft → UsesDraft) : (d.mapUses u f).Pristine :=
  ⟨h.nodes, h.augments, h.listed, h.nested, h.top⟩

theorem pushedUses (s : Site) (u : UsesId) : (d.pushedUses s u).Pristine := by
  cases s with
  | module m => exact h.mapModule m fun _ hg => .inl hg
  | node i =>
    exact h.mapNode (f := fun r => { r with uses := r.uses ++ [u] })
      (fun _ hr => ⟨hr.origin, hr.byUses, hr.augmenting, hr.augmentations⟩) i fun _ hg => .inl hg
  | grouping i => exact h.mapGrouping i fun _ hg => .inl hg
  | augment a => exact h.mapAugment (f := fun r => { r with uses := r.uses ++ [u] }) (fun _ => rfl) a

/-- A new node is attached, perhaps with a shorthand case around it. -/
theorem attached {c x : NodeId} (hd : d.Attached s c x d₁) : d₁.Pristine := by
  have hnode : ∀ i, (d₁.node i).Pristine ∧ ∀ g ∈ (d₁.node i).groupings, g.index < d.groupings.size := by
    intro i
    rcases Nat.lt_or_ge i.index d.nodes.size with hi | hi
    · rw [hd.node i hi]
      have hr := h.nodes i
      exact ⟨⟨hr.origin, hr.byUses, hr.augmenting, hr.augmentations⟩, h.listed i⟩
    rcases Nat.lt_or_ge i.index d₁.nodes.size with hi₁ | hi₁
    · obtain ⟨rfl, hw⟩ := hd.eq_of_new hi hi₁
      obtain ⟨-, -, hnode⟩ := hd.wrapper hw
      rw [hnode]
      have hr := h.nodes c
      exact ⟨⟨rfl, hr.byUses, hr.augmenting, rfl⟩, fun _ hg => (by cases hg)⟩
    · rw [node_of_size_le hi₁]
      exact ⟨⟨rfl, rfl, rfl, rfl⟩, fun _ hg => (by cases hg)⟩
  refine ⟨fun i => (hnode i).1, fun a => ?_, fun i g hg => ?_, fun i g hg => ?_, fun m g hg => ?_⟩
  · rw [hd.augment]
    exact h.augments a
  · rw [hd.groupings_size]
    exact (hnode i).2 g hg
  · rw [hd.grouping] at hg
    rw [hd.groupings_size]
    exact h.nested i g hg
  · rw [hd.module] at hg
    rw [hd.groupings_size]
    exact h.top m g hg

end Pristine

end Draft

end YangSchema
