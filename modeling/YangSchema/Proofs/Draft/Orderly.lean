import YangSchema.Proofs.Draft.Furnishing
import YangSchema.Proofs.Draft.Transplanting
import YangSchema.Proofs.Inference.Deviations

/-!
# Orderly drafts

In an orderly draft no list of children has an entry twice, choices hold cases only, and nodes have the
paths of their places.  Every edit of the tree keeps drafts orderly: new records that hold no nodes
(`Orderly.add`), attaching (`Attached.orderly`), taking out (`ends_detachUpTo_orderly`) and copying
(`Grows.orderly`).
-/

namespace YangSchema

namespace Draft

open Edit

variable {style : CopyStyle} {d d₁ : Draft} {s t : Site} {c i r : NodeId} {P : Item → Prop}

structure Orderly (d : Draft) : Prop where
  sound : d.Sound
  once : ∀ s, (d.childrenOf s).Nodup
  cases : ∀ s, d.isChoice s = true → ∀ c ∈ d.childrenOf s, (d.node c).kind.isCase = true
  pathed : d.Pathed
  noUses : d.NoUses

namespace Orderly

theorem empty : Orderly {} where
  sound :=
    { unfrozen := ⟨fun _ => rfl, fun _ => rfl, fun _ => rfl, fun _ => rfl, fun _ => rfl⟩
      parent_iff := fun s c => by
        rw [childrenOf_of_not_hasSite (by cases s <;> exact Nat.not_lt_zero _),
          node_of_size_le (Nat.zero_le _)]
        exact ⟨fun h => (by cases h), fun h => (by cases h)⟩
      uses_lt := fun s u hu => by
        rw [usesAt_of_not_hasSite (by cases s <;> exact Nat.not_lt_zero _)] at hu
        cases hu
      augment_lt := fun u a ha => by
        rw [usesOf_of_size_le (Nat.zero_le _)] at ha
        cases ha
      wf := ⟨fun x => ⟨x, fun y hy => by
        have hx := hasItem_of_contains hy
        rcases x with (i | i | i | i) | u <;> exact absurd hx (Nat.not_lt_zero _)⟩⟩ }
  once s := by
    rw [childrenOf_of_not_hasSite (by cases s <;> exact Nat.not_lt_zero _)]
    exact List.nodup_nil
  cases s _ c hc := by
    have hs := hasSite_of_mem_childrenOf hc
    cases s <;> exact absurd hs (Nat.not_lt_zero _)
  pathed y _ c hc := by
    have hy := hasSite_of_mem_childrenOf hc
    cases y <;> exact absurd hy (Nat.not_lt_zero _)
  noUses i := by
    rw [node_of_size_le (Nat.zero_le _)]
    rfl

/-! ## New records -/

/-- Records are added that hold no nodes. -/
theorem add (h : d.Orderly) (hsound : d₁.Sound)
    (hnode : ∀ i, i.index < d.nodes.size → d₁.node i = d.node i)
    (hparent : ∀ i, (d₁.node i).parent = (d.node i).parent)
    (hchildren : ∀ y, d₁.childrenOf y = d.childrenOf y)
    (hpathOf : ∀ y, d.HasSite y → d₁.pathOf y = d.pathOf y) (hnone : d₁.NoUses) : d₁.Orderly where
  sound := hsound
  once s := by
    rw [hchildren]
    exact h.once s
  cases s hs c hc := by
    rw [hchildren] at hc
    rw [isChoice_congr (fun i hi => by rw [hnode i hi]) (hasSite_of_mem_childrenOf hc)] at hs
    rw [hnode c (h.sound.child_lt hc)]
    exact h.cases s hs c hc
  pathed := h.pathed.of_same h.sound (fun i hi => by rw [hnode i hi]) hparent hchildren hpathOf
  noUses := hnone

/-- A new node that hangs nowhere and holds nothing. -/
theorem withNode (h : d.Orderly) {r : NodeDraft} (hc : r.children = []) (hu : r.uses = [])
    (hp : r.parent = none) : (d.withNode r).Orderly where
  sound := h.sound.withNode hc hu hp
  once s := by
    rw [childrenOf_withNode hc]
    exact h.once s
  cases s hs c hcs := by
    rw [childrenOf_withNode hc] at hcs
    have hnode := (Extends.withNode d r).node
    rw [isChoice_congr (fun i hi => by rw [hnode i hi]) (hasSite_of_mem_childrenOf hcs)] at hs
    rw [hnode c (h.sound.child_lt hcs)]
    exact h.cases s hs c hcs
  pathed := h.pathed.withNode h.sound hc hp
  noUses i := by
    rw [node_withNode]
    split
    · exact hu
    · exact h.noUses i

end Orderly

/-- A new site that holds no nodes; the uses at it are there already. -/
theorem Sound.add (hd : d.Sound) (hu : d₁.Unfrozen) (hs : ¬ d.HasSite s)
    (hparent : ∀ i, (d₁.node i).parent = (d.node i).parent)
    (hchildren : ∀ y, d₁.childrenOf y = d.childrenOf y)
    (huses : ∀ t, t ≠ s → d₁.usesAt t = d.usesAt t) (hnew : ∀ u ∈ d₁.usesAt s, u.index < d.uses.size)
    (hshelf : d₁.uses = d.uses) (hle : d.augments.size ≤ d₁.augments.size) : d₁.Sound := by
  have hof : ∀ u, d₁.usesOf u = d.usesOf u := fun u => congrArg (fun l => l.read u.index) hshelf
  have hcontains : ∀ x y, d₁.Contains y x → d.Contains y x ∨ x = .site s ∧ d.HasItem y := by
    intro x y hy
    cases x with
    | uses u =>
      rw [contains_uses, hof] at hy
      exact .inl (contains_uses.2 hy)
    | site t =>
      rw [contains_site, hchildren] at hy
      by_cases ht : t = s
      · rcases hy with hy | ⟨u, hu, rfl⟩
        · exact .inl (contains_site.2 (.inl hy))
        · exact .inr ⟨congrArg Item.site ht, hnew u (ht ▸ hu)⟩
      · rw [huses t ht] at hy
        exact .inl (contains_site.2 hy)
  refine ⟨hu, fun t c => ?_, fun t u hut => ?_, fun u a ha => ?_, ?_⟩
  · rw [hchildren, hparent]
    exact hd.parent_iff t c
  · rw [hshelf]
    by_cases ht : t = s
    · exact hnew u (ht ▸ hut)
    · exact hd.uses_lt t u (huses t ht ▸ hut)
  · rw [hof] at ha
    exact Nat.lt_of_lt_of_le (hd.augment_lt u a ha) hle
  · -- what was there contains what it did, and the new site contains what was there
    refine wellFounded_of_new hd.wf d.HasItem (fun x y hx hy => ?_) fun x y hy => ?_
    · rcases hcontains x y hy with hy | ⟨rfl, -⟩
      · exact ⟨hd.hasItem_of_contains hy, hy⟩
      · exact absurd hx hs
    · exact (hcontains x y hy).symm.imp_left And.right

/-! ## Attaching -/

/-- With no uses at nodes, a node contains nothing but the nodes below it. -/
theorem Orderly.loose (h : d.Orderly) (hlt : c.index < d.nodes.size)
    (hparent : (d.node c).parent = none) :
    d.Loose (fun x => ∃ i, x = .site (.node i) ∧ d.Under (.node i) (.node c)) c := by
  refine ⟨hlt, hparent, ⟨c, rfl, .refl _⟩, ?_⟩
  rintro _ y ⟨i, rfl, hi⟩ hy
  rcases contains_site.1 hy with ⟨j, hj, rfl⟩ | ⟨u, hu, -⟩
  · exact ⟨j, rfl, h.sound.under_of_mem hi hj⟩
  · have hnone : d.usesAt (.node i) = [] := h.noUses i
    rw [hnone] at hu
    cases hu

/-- No list has an entry twice after a node that hung nowhere is attached. -/
theorem Attached.nodup_childrenOf (hd : d.Orderly) (h : d.Attached s c r d₁)
    (hparent : (d.node c).parent = none) (t : Site) : (d₁.childrenOf t).Nodup := by
  by_cases htw : t = .node ⟨d.nodes.size⟩
  · subst htw
    by_cases hlt₁ : d.nodes.size < d₁.nodes.size
    · obtain ⟨rfl, hw⟩ := h.eq_of_new (i := ⟨d.nodes.size⟩) (Nat.le_refl _) hlt₁
      rw [h.children_wrapper hw]
      exact List.nodup_singleton c
    · rw [childrenOf_of_not_hasSite (s := .node ⟨d.nodes.size⟩) hlt₁]
      exact List.nodup_nil
  by_cases hts : t = s
  · subst hts
    rw [h.children_self, List.nodup_append]
    refine ⟨hd.once t, List.nodup_singleton r, fun a ha b hb hab => ?_⟩
    rw [List.mem_singleton.1 hb] at hab
    subst hab
    cases hw : d.wraps t c with
    | false =>
      obtain ⟨rfl, -⟩ := h.direct hw
      have hp := hd.sound.parent_eq ha
      rw [hparent] at hp
      cases hp
    | true =>
      obtain ⟨rfl, -⟩ := h.wrapper hw
      exact Nat.lt_irrefl _ (hd.sound.child_lt ha)
  · rw [h.children_of_ne t htw hts]
    exact hd.once t

/-- Choices hold cases only after a node is attached. -/
theorem Attached.isCase_of_isChoice (hd : d.Orderly) (h : d.Attached s c r d₁)
    (hlt : c.index < d.nodes.size) (hs : d.HasSite s) {t : Site} (ht : d₁.isChoice t = true)
    (hi : i ∈ d₁.childrenOf t) : (d₁.node i).kind.isCase = true := by
  rcases h.mem_childrenOf hi with hi | ⟨rfl, rfl⟩ | ⟨rfl, rfl, hw⟩
  · rw [isChoice_congr (fun _ => h.kind) (hasSite_of_mem_childrenOf hi)] at ht
    rw [h.kind (hd.sound.child_lt hi)]
    exact hd.cases t ht i hi
  · cases hw : d.wraps t c with
    | false =>
      obtain ⟨rfl, -⟩ := h.direct hw
      rw [isChoice_congr (fun _ => h.kind) hs] at ht
      rw [wraps_eq, ht] at hw
      rw [h.kind hlt]
      simpa using hw
    | true =>
      rw [(h.wrapper hw).2.2]
      rfl
  · -- the shorthand case is no choice
    change (d₁.node r).kind.isChoice = true at ht
    rw [(h.wrapper hw).2.2] at ht
    cases ht

/-- A node that hung nowhere is attached. -/
theorem Attached.orderly (hd : d.Orderly) (h : d.Attached s c r d₁) (hlt : c.index < d.nodes.size)
    (hparent : (d.node c).parent = none) (hs : d.HasSite s) (hsc : ¬ d.Under s (.node c)) :
    d₁.Orderly where
  sound := h.sound
  once := h.nodup_childrenOf hd hparent
  cases _ ht _ := h.isCase_of_isChoice hd hlt hs ht
  pathed := h.pathed hd.sound hd.pathed hparent hlt hs hsc
  noUses i := (h.usesAt (.node i)).trans (hd.noUses i)

/-! ## Taking out -/

theorem Orderly.detached (h : d.Orderly) (hc : (d.node c).parent = some s) :
    (d.detached s c).Orderly := by
  have hlt := lt_of_parent hc
  have hs := h.sound.hasSite_parent hc
  have hchildren : ∀ t, ((d.detached s c).childrenOf t).Sublist (d.childrenOf t) := by
    intro t
    rw [childrenOf_detached]
    by_cases ht : t = s
    · rw [ht, childrenOf_mapChildren_self hs]
      exact List.filter_sublist
    · rw [childrenOf_mapChildren_of_ne (Ne.symm ht)]
  have hfacts : ∀ i, ((d.detached s c).node i).facts = (d.node i).facts := by
    intro i
    rw [node_detached hlt]
  refine ⟨h.sound.detached hc, fun t => (hchildren t).nodup (h.once t), fun t ht x hx => ?_, ?_,
    fun i => ?_⟩
  · refine (congrArg (fun f => f.kind.isCase) (hfacts x)).trans (h.cases t ?_ x ((hchildren t).subset hx))
    cases t with
    | node i => exact (congrArg (fun f => f.kind.isChoice) (hfacts i)).symm.trans ht
    | _ => cases ht
  · refine h.pathed.of_links fun y hy x hx => ?_
    refine ⟨hy.of_parent fun i p hp => ?_, (hchildren y).subset hx,
      congrArg NodeFacts.path (hfacts x), congrArg NodeFacts.name (hfacts x), ?_⟩
    · rw [node_detached hlt] at hp
      replace hp : (if i = c then none else (d.node i).parent) = some p := hp
      split at hp
      · cases hp
      · exact hp
    · cases y with
      | module m => rfl
      | node i => exact congrArg NodeFacts.path (hfacts i)
      | grouping g =>
        exact congrArg (fun r => r.facts.path) (grouping_mapChildren s (·.filter (· != c)) g)
      | augment a =>
        exact congrArg (fun r => r.facts.target) (augment_mapChildren s (·.filter (· != c)) a)
  · rw [node_detached hlt]
    exact h.noUses i

/-- A node is taken out, with the shorthand cases that this leaves empty. -/
theorem ends_detachUpTo_orderly (fuel : Nat) (h : d.Orderly) (c : NodeId) :
    Ends (detachUpTo fuel c) d (fun _ d' => d'.Orderly) fun _ _ => False := by
  induction fuel generalizing d c with
  | zero => exact h
  | succ fuel ih =>
    rw [detachUpTo, ends_bind, ends_get]
    split
    next s hs =>
      rw [ends_bind, ends_editChildren h.sound.unfrozen, ends_bind,
        ends_editNode (h.sound.unfrozen.mapChildren s _)]
      have hdetached := h.detached hs
      change Ends _ (d.detached s c) _ _
      split
      · next p =>
        rw [ends_bind, ends_get]
        dsimp only
        split
        · exact ih hdetached p
        · exact hdetached
      · exact hdetached
    · exact h

/-! ## Copying -/

/-- Copies of the nodes of a list are as many different nodes. -/
theorem nodup_of_map_origin {l : List NodeId} {l' : List NodeId} (hl : l.Nodup)
    (h : l'.map (fun c => (d.node c).origin) = l.map some) : l'.Nodup := by
  refine List.Nodup.of_map (fun c => (d.node c).origin) ?_
  rw [h]
  exact hl.map (Option.some_injective NodeId)

theorem isChoice_kind (style : CopyStyle) (k : NodeKind) : (style.kind k).isChoice = k.isChoice :=
  NodeKind.isChoice_eq (style.keyword_kind k)

/-- A draft that grew by copies. -/
theorem Grows.orderly (hd : d.Orderly) (h : Grows style (fun _ => False) P d d d₁)
    (hf : Furnished (fun _ => False) P d d d₁) : d₁.Orderly := by
  have he := h.extends_
  have hcopied : ∀ i, d.nodes.size ≤ i.index → i.index < d₁.nodes.size →
      ∃ o, CopyOf style d d₁ o i := by
    intro i h₁ h₂
    obtain ⟨o, -, hcopy⟩ := (h.copied i h₁ h₂).resolve_left id
    exact ⟨o, hcopy⟩
  refine ⟨h.sound, fun s => ?_, fun s hs c hc => ?_, hf.pathed hd.pathed, hf.noUses hd.noUses⟩
  · by_cases hs : d.HasSite s
    · rw [he.childrenOf hs]
      exact hd.once s
    by_cases hs₁ : d₁.HasSite s
    · cases s with
      | module m => exact absurd (Nat.lt_of_lt_of_eq hs₁ he.modules_size) hs
      | grouping g => exact absurd (Nat.lt_of_lt_of_eq hs₁ he.groupings_size) hs
      | node i =>
        obtain ⟨o, hcopy⟩ := hcopied i (Nat.not_lt.1 hs) hs₁
        exact nodup_of_map_origin (hd.once (.node o)) hcopy.children
      | augment a =>
        obtain ⟨o, -, hmap⟩ := (hf.bodies a (Nat.not_lt.1 hs) hs₁).resolve_left id
        exact nodup_of_map_origin (hd.once (.augment o)) hmap
    · rw [childrenOf_of_not_hasSite hs₁]
      exact List.nodup_nil
  · by_cases hold : d.HasSite s
    · rw [he.childrenOf hold] at hc
      rw [isChoice_congr (fun i hi => by rw [he.node i hi]) hold] at hs
      rw [he.node c (hd.sound.child_lt hc)]
      exact hd.cases s hs c hc
    cases s with
    | node i =>
      have hlt := hasSite_of_mem_childrenOf hc
      obtain ⟨o, hcopy⟩ := hcopied i (Nat.not_lt.1 hold) hlt
      -- the child is the copy of a child of the original
      have hclosed : ¬ d.HasItem (.site (.node c)) :=
        h.closed (.site (.node i)) _ hold (contains_site.2 (.inl ⟨c, hc, rfl⟩))
      obtain ⟨x, hx⟩ := hcopied c (Nat.not_lt.1 hclosed) (h.sound.child_lt hc)
      have hmem : (d₁.node c).origin ∈ (d.node o).children.map some := by
        rw [← hcopy.children]
        exact List.mem_map.2 ⟨c, hc, rfl⟩
      rw [hx.origin] at hmem
      obtain ⟨x', hx', hxx⟩ := List.mem_map.1 hmem
      obtain rfl := Option.some.inj hxx
      rw [hx.kind, CopyStyle.isCase_kind]
      refine hd.cases (.node o) ?_ x' hx'
      change (d₁.node i).kind.isChoice = true at hs
      rw [hcopy.kind, isChoice_kind] at hs
      exact hs
    | _ => cases hs

end Draft

end YangSchema
