import YangSchema.Proofs.Draft.Grafting

/-!
# Implants

A copied node that is attached to a site and a copied uses that is put there come to the same
(`Implanted`): what was there keeps its record and refers to what it referred to before, the site lists
one thing more, at the end, and everything new is a copy or the shorthand case around one.
-/

namespace YangSchema

namespace Draft

variable {style : CopyStyle} {P P' : Item → Prop} {d d₁ d₂ : Draft} {s : Site} {c r : NodeId}
  {u : UsesId}

/-- The node `i` is a shorthand case that was put around a node. -/
structure Wrapping (d : Draft) (i : NodeId) : Prop where
  kind : (d.node i).kind = .caseNode true
  origin : (d.node i).origin = none
  groupings : (d.node i).groupings = []
  augmentations : (d.node i).augmentations = []
  children : (d.node i).children ≠ []

/-- `d₁` is `d` with copies of what `P` holds of, put at the site `s`. -/
structure Implanted (style : CopyStyle) (s : Site) (P : Item → Prop) (d d₁ : Draft) : Prop where
  sound : d₁.Sound
  nodes_le : d.nodes.size ≤ d₁.nodes.size
  uses_le : d.uses.size ≤ d₁.uses.size
  augments_le : d.augments.size ≤ d₁.augments.size
  groupings_size : d₁.groupings.size = d.groupings.size
  modules_size : d₁.modules.size = d.modules.size
  node : ∀ i, i.index < d.nodes.size → d₁.node i =
    { d.node i with children := d₁.childrenOf (.node i), uses := d₁.usesAt (.node i) }
  augment : ∀ a, a.index < d.augments.size → d₁.augment a =
    { d.augment a with children := d₁.childrenOf (.augment a), uses := d₁.usesAt (.augment a) }
  grouping : ∀ g, d₁.grouping g =
    { d.grouping g with children := d₁.childrenOf (.grouping g), uses := d₁.usesAt (.grouping g) }
  module : ∀ m, d₁.module m =
    { d.module m with children := d₁.childrenOf (.module m), uses := d₁.usesAt (.module m) }
  /-- A list of children goes on with new nodes. -/
  children : ∀ t, d.HasSite t →
    ∃ news, d₁.childrenOf t = d.childrenOf t ++ news ∧ ∀ i ∈ news, d.nodes.size ≤ i.index
  /-- Nothing goes away. -/
  contains : ∀ x y, d.Contains y x → d₁.Contains y x
  /-- New things are only put at the site and into new things. -/
  put : ∀ x y, d₁.Contains y x → d.Contains y x ∨ ¬ d.HasItem y ∧ (x = .site s ∨ ¬ d.HasItem x)
  copied : ∀ i, d.nodes.size ≤ i.index → i.index < d₁.nodes.size →
    d₁.Wrapping i ∨ ∃ o, P (.site (.node o)) ∧ CopyOf style d d₁ o i
  augments : ∀ a, d.augments.size ≤ a.index → a.index < d₁.augments.size →
    ∃ o, P (.site (.augment o)) ∧ (d₁.augment a).origin = some o

theorem Implanted.hasItem (h : Implanted style s P d d₁) {x : Item} (hx : d.HasItem x) :
    d₁.HasItem x := by
  rcases x with (i | i | i | i) | u
  · exact Nat.lt_of_lt_of_eq hx h.modules_size.symm
  · exact Nat.lt_of_lt_of_le hx h.nodes_le
  · exact Nat.lt_of_lt_of_eq hx h.groupings_size.symm
  · exact Nat.lt_of_lt_of_le hx h.augments_le
  · exact Nat.lt_of_lt_of_le hx h.uses_le

namespace Grows

/-- Growth puts nothing into what was there. -/
theorem contains_iff {X : NodeId → Prop} (hg : Grows style X P' d d d₁) {x y : Item} :
    d₁.Contains y x ↔ d.Contains y x ∨ ¬ d.HasItem x ∧ d₁.Contains y x := by
  by_cases hx : d.HasItem x
  · have hcontents : d₁.Contains y x ↔ d.Contains y x := by
      unfold Contains
      rw [hg.extends_.contents hx]
    rw [hcontents]
    simp [hx]
  · constructor
    · exact fun h => .inr ⟨hx, h⟩
    · rintro (h | h)
      · exact absurd (hasItem_of_contains h) hx
      · exact h.2

end Grows

namespace Copied

variable {x : NodeId} (h : Copied style P' s x c r d d₁ d₂)
include h

/-- The shorthand case holds nothing but the node that it was put around. -/
theorem put_wrapper {y : Item} (hy : d₂.Contains y (.site (.node ⟨d₁.nodes.size⟩))) :
    ¬ d.HasItem y := by
  have hlt : d₁.nodes.size < d₂.nodes.size := hasItem_of_contains hy
  obtain ⟨rfl, hw⟩ := h.attached.eq_of_new (i := ⟨d₁.nodes.size⟩) (Nat.le_refl _) hlt
  obtain ⟨-, -, hnode⟩ := h.attached.wrapper hw
  rcases contains_site.1 hy with ⟨i, hi, rfl⟩ | ⟨v, hv, rfl⟩
  · have hi' : i ∈ (d₂.node ⟨d₁.nodes.size⟩).children := hi
    rw [hnode] at hi'
    rw [List.mem_singleton.1 hi']
    exact Nat.not_lt.2 h.new
  · rw [h.attached.usesAt, usesAt_of_not_hasSite (Nat.lt_irrefl _)] at hv
    cases hv

/-- What is new is put at the site or into something new. -/
theorem put (hs : d.HasSite s) {z y : Item} (hy : d₂.Contains y z) :
    d.Contains y z ∨ ¬ d.HasItem y ∧ (z = .site s ∨ ¬ d.HasItem z) := by
  have he := h.grows.extends_
  by_cases hz : z = .site (.node ⟨d₁.nodes.size⟩)
  · subst hz
    exact .inr ⟨h.put_wrapper hy, .inr (Nat.not_lt.2 he.nodes_le)⟩
  rcases (h.attached.contains_iff hz).1 hy with hy | ⟨rfl, rfl⟩
  · rcases h.grows.contains_iff.1 hy with hy | ⟨hz, hy⟩
    · exact .inl hy
    · exact .inr ⟨h.grows.closed z y hz hy, .inr hz⟩
  · exact .inr ⟨Nat.not_lt.2 (h.planted hs).new, .inl rfl⟩

theorem wrapping_or_copy (hs : d.HasSite s) {i : NodeId} (hi : d.nodes.size ≤ i.index)
    (hlt : i.index < d₂.nodes.size) :
    d₂.Wrapping i ∨ ∃ o, P' (.site (.node o)) ∧ CopyOf style d d₂ o i := by
  by_cases hi₁ : i.index < d₁.nodes.size
  · obtain ⟨o, ho, hcopy⟩ := (h.grows.copied i hi hi₁).resolve_left id
    have horigin := (h.attached.origin hi₁).trans hcopy.origin
    exact .inr ⟨o, ho, h.copyOf_new hs hi hlt horigin⟩
  · obtain ⟨rfl, hw⟩ := h.attached.eq_of_new (Nat.not_lt.1 hi₁) hlt
    obtain ⟨-, -, hnode⟩ := h.attached.wrapper hw
    refine .inl ⟨?_, ?_, ?_, ?_, ?_⟩
    all_goals rw [hnode]
    · rfl
    · rfl
    · rfl
    · rfl
    · exact List.cons_ne_nil _ _

/-- A copied node is attached. -/
theorem implanted (hd : d.Sound) (hs : d.HasSite s) (hP : ∀ x, P' x → P x) :
    Implanted style s P d d₂ := by
  have he := h.grows.extends_
  have hatt := h.attached
  refine {
    sound := hatt.sound
    nodes_le := Nat.le_trans he.nodes_le hatt.nodes_le
    uses_le := by rw [hatt.uses]; exact he.uses_le
    augments_le := by rw [hatt.augments_size]; exact he.augments_le
    groupings_size := hatt.groupings_size.trans he.groupings_size
    modules_size := hatt.modules_size.trans he.modules_size
    node := fun i hi => ?_
    augment := fun a ha => ?_
    grouping := fun g => ?_
    module := fun m => ?_
    children := fun t ht => ?_
    contains := fun x y hy => ?_
    put := fun x y hy => h.put hs hy
    copied := fun i hi hlt => (h.wrapping_or_copy hs hi hlt).imp_right <|
      Exists.imp fun o ho => ⟨hP _ ho.1, ho.2⟩
    augments := fun a ha hlt => ?_ }
  · rw [hatt.node_of_lt hd he h.new hi, hatt.usesAt, he.usesAt (s := .node i) hi]
    rfl
  · rw [hatt.augment, he.augment a ha, hatt.usesAt, he.usesAt (s := .augment a) ha]
    rfl
  · have huses : d₁.usesAt (.grouping g) = (d.grouping g).uses :=
      congrArg GroupingDraft.uses (he.grouping g)
    rw [hatt.grouping, hatt.usesAt, huses, he.grouping]
  · have huses : d₁.usesAt (.module m) = (d.module m).uses :=
      congrArg ModuleDraft.uses (he.module m)
    rw [hatt.module, hatt.usesAt, huses, he.module]
  · by_cases hts : t = s
    · subst hts
      refine ⟨[r], h.children_self hs, fun i hi => ?_⟩
      rw [List.mem_singleton.1 hi]
      exact (h.planted hs).new
    · exact ⟨[], by rw [h.childrenOf ht hts, List.append_nil], fun _ hi => by cases hi⟩
  · have hx : d.HasItem x := hasItem_of_contains hy
    have hne : x ≠ .site (.node ⟨d₁.nodes.size⟩) := by
      rintro rfl
      exact Nat.not_le.2 hx he.nodes_le
    exact (hatt.contains_iff hne).2 (.inl (h.grows.contains_iff.2 (.inl hy)))
  · rw [hatt.augments_size] at hlt
    obtain ⟨o, ho, horigin⟩ := h.grows.augments a ha hlt
    exact ⟨o, hP _ ho, by rw [hatt.augment]; exact horigin⟩

end Copied

/-- A copied uses is put. -/
theorem Grows.implanted (hg : Grows style (fun _ => False) P' d d d₁) (hs : d.HasSite s)
    (hP : ∀ x, P' x → P x) (hu : d.uses.size ≤ u.index) (hlt : u.index < d₁.uses.size) :
    Implanted style s P d (d₁.pushedUses s u) := by
  have he := hg.extends_
  have hs₁ := he.hasSite hs
  obtain ⟨hz₁, hz₂, hz₃, hz₄, hz₅⟩ := d₁.sizes_pushedUses s u
  have hchildren : ∀ t, (d₁.pushedUses s u).childrenOf t = d₁.childrenOf t :=
    fun t => childrenOf_pushedUses s t u
  refine {
    sound := hg.sound.pushedUses hs₁ _ hg.new_closed ⟨hlt, Nat.not_lt.2 hu⟩ hlt fun h => h.2 hs
    nodes_le := by rw [hz₁]; exact he.nodes_le
    uses_le := by rw [hz₃]; exact he.uses_le
    augments_le := by rw [hz₄]; exact he.augments_le
    groupings_size := hz₂.trans he.groupings_size
    modules_size := hz₅.trans he.modules_size
    node := fun i hi => ?_
    augment := fun a ha => ?_
    grouping := fun g => ?_
    module := fun m => ?_
    children := fun t ht => ⟨[], by rw [hchildren, he.childrenOf ht, List.append_nil],
      fun _ hi => by cases hi⟩
    contains := fun x y hy => ?_
    put := fun x y hy => ?_
    copied := fun i hi hlt => ?_
    augments := fun a ha hlt => ?_ }
  · rw [hchildren, he.childrenOf (s := .node i) hi, node_pushedUses, he.node i hi]
    rfl
  · rw [hchildren, he.childrenOf (s := .augment a) ha, augment_pushedUses, he.augment a ha]
    rfl
  · have hc : d₁.childrenOf (.grouping g) = (d.grouping g).children :=
      congrArg GroupingDraft.children (he.grouping g)
    rw [hchildren, hc, grouping_pushedUses, he.grouping]
  · have hc : d₁.childrenOf (.module m) = (d.module m).children :=
      congrArg ModuleDraft.children (he.module m)
    rw [hchildren, hc, module_pushedUses, he.module]
  · exact (contains_pushedUses hs₁ u).2 (.inl (hg.contains_iff.2 (.inl hy)))
  · rcases (contains_pushedUses hs₁ u).1 hy with hy | ⟨rfl, rfl⟩
    · rcases hg.contains_iff.1 hy with hy | ⟨hx, hy⟩
      · exact .inl hy
      · exact .inr ⟨hg.closed x y hx hy, .inr hx⟩
    · exact .inr ⟨Nat.not_lt.2 hu, .inl rfl⟩
  · rw [hz₁] at hlt
    obtain ⟨o, ho, hcopy⟩ := (hg.copied i hi hlt).resolve_left id
    refine .inr ⟨o, hP _ ho, hcopy.congr ?_ fun j _ => ?_⟩
    · rw [node_pushedUses]
      rfl
    · rw [node_pushedUses]
  · rw [hz₄] at hlt
    obtain ⟨o, ho, horigin⟩ := hg.augments a ha hlt
    exact ⟨o, hP _ ho, by rw [augment_pushedUses]; exact horigin⟩

end Draft

end YangSchema
