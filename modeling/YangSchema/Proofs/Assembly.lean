import YangSchema.Proofs.Draft.Orderly

/-!
# Drafts that are put together by edits

Whoever holds a draft may add records, attach nodes and take them out, and copy definitions, in any order
and as often as wanted (`Draft.Assembled`).  The draft is a forest in every state that is reached so
(`Assembled.forest`): lists of children and parents tell the same, choices hold cases only, and paths are
those of the places.  One edit keeps a draft in order, or is refused and changes nothing (`Op.ends_run`).
-/

namespace YangSchema

namespace Draft

open Edit

/-- The edits of the tree of a draft. -/
inductive Op where
  | addModule (r : ModuleDraft)
  | addNode (kind : NodeKind) (name : QName)
  | addGrouping (r : GroupingDraft)
  | addAugment (r : AugmentDraft)
  | addUses (r : UsesDraft)
  | attach (s : Site) (c : NodeId)
  | detach (c : NodeId)
  | copyNode (style : CopyStyle) (source : NodeId)
  | copyUses (style : CopyStyle) (source : UsesId)
  | copyAugment (style : CopyStyle) (source : AugmentId)

namespace Op

def run : Op → Edit Unit
  | addModule r => discard (Draft.addModule r)
  | addNode kind name => discard (Draft.addNode (.blank kind name))
  | addGrouping r => discard (Draft.addGrouping r)
  | addAugment r => discard (Draft.addAugment r)
  | addUses r => discard (Draft.addUses r)
  | attach s c => discard (Draft.attach s c)
  | detach c => Draft.detach c
  | copyNode style source => discard (Draft.copyNode style source)
  | copyUses style source => discard (Draft.copyUses style source)
  | copyAugment style source => discard (Draft.copyAugment style source)

/-- What the edit names is there.  New records hold no nodes as yet; what is attached hangs nowhere, and
goes to no place inside itself. -/
def Allowed (d : Draft) : Op → Prop
  | addModule r => r.children = [] ∧ ∀ u ∈ r.uses, u.index < d.uses.size
  | addNode _ _ => True
  | addGrouping r => r.children = [] ∧ ∀ u ∈ r.uses, u.index < d.uses.size
  | addAugment r => r.children = [] ∧ ∀ u ∈ r.uses, u.index < d.uses.size
  | addUses r => ∀ a ∈ r.augmentations, a.index < d.augments.size
  | attach s c => d.HasSite s ∧ c.index < d.nodes.size ∧ (d.node c).parent = none ∧
      ¬ d.Under s (.node c)
  | detach c => c.index < d.nodes.size
  | copyNode _ source => source.index < d.nodes.size
  | copyUses _ source => source.index < d.uses.size
  | copyAugment _ source => source.index < d.augments.size

/-- The identity of the module is taken, or nothing may be attached to the site. -/
def Refused (d : Draft) : Op → Prop
  | addModule r => (d.moduleOf? r.facts.identity).isSome = true
  | attach s _ => d.accepts s = false
  | _ => False

end Op

theorem not_under_of_parent_none {d : Draft} {i c : NodeId} (hi : (d.node i).parent = none) (hne : i ≠ c) :
    ¬ d.Under (.node i) (.node c) := by
  intro h
  cases h with
  | refl => exact hne rfl
  | up hp _ =>
    rw [hi] at hp
    cases hp

/-- The drafts that are reached from the empty one by edits that succeed. -/
inductive Assembled : Draft → Prop
  | empty : Assembled {}
  | step {d d₁ : Draft} (op : Op) (h : Assembled d) (hallowed : op.Allowed d)
    (hrun : op.run.perform d = (.ok (), d₁)) : Assembled d₁

theorem Assembled.next {d : Draft} (h : d.Assembled) (op : Op) (hallowed : op.Allowed d)
    (hok : (op.run.perform d).1 = .ok ()) : Assembled (op.run.perform d).2 :=
  .step op h hallowed (Prod.ext hok rfl)

/-- A draft whose nodes make up trees, each node at the place that its path tells. -/
structure Forest (d : Draft) : Prop where
  /-- A node is listed by its parent, and by nothing else. -/
  listed : ∀ p c, c ∈ d.childrenOf p ↔ (d.node c).parent = some p
  once : ∀ p, (d.childrenOf p).Nodup
  /-- The parent of a node does not hang below the node. -/
  acyclic : ∀ c p, (d.node c).parent = some p → ¬ d.Under p (.node c)
  cases : ∀ i c, (d.node i).kind.isChoice = true → c ∈ d.childrenOf (.node i) →
    (d.node c).kind.isCase = true
  /-- Below a module, a grouping or an augmentation a path goes on from that of the parent. -/
  paths : ∀ c p root, (d.node c).parent = some p → d.Under p root → (∀ i, root ≠ .node i) →
    (d.node c).path = (d.pathOf p).child (d.node c).name

variable {d d₁ : Draft}

theorem Orderly.forest_of (h : d.Orderly) : d.Forest where
  listed := h.sound.parent_iff
  once := h.once
  acyclic _ _ hp := h.sound.not_under_child hp
  cases i c hi hc := h.cases (.node i) hi c hc
  paths c p root hp hroot hne := h.pathed p ⟨root, hne, hroot⟩ c ((h.sound.parent_iff p c).2 hp)

/-! ## One edit -/

theorem Orderly.addModule (h : d.Orderly) {r : ModuleDraft} (hc : r.children = [])
    (hu : ∀ u ∈ r.uses, u.index < d.uses.size) : (d.withModule r).Orderly := by
  have hchildren := childrenOf_withModule (d := d) hc
  refine h.add ?_ (fun _ _ => rfl) (fun _ => rfl) hchildren (fun y _ => by cases y <;> rfl) h.noUses
  refine h.sound.add (s := .module ⟨d.modules.size⟩) (h.sound.unfrozen.withModule r) (Nat.lt_irrefl _)
    (fun _ => rfl) hchildren (fun t ht => ?_) (fun u hur => hu u ?_) rfl (Nat.le_refl _)
  · cases t with
    | module i =>
      show ((d.withModule r).module i).uses = (d.module i).uses
      rw [module_withModule, if_neg]
      rintro hi
      exact ht (by cases i; cases hi; rfl)
    | _ => rfl
  · change u ∈ ((d.withModule r).module ⟨d.modules.size⟩).uses at hur
    rwa [module_withModule_self] at hur

theorem Orderly.addGrouping (h : d.Orderly) {r : GroupingDraft} (hc : r.children = [])
    (hu : ∀ u ∈ r.uses, u.index < d.uses.size) : (d.withGrouping r).Orderly := by
  have hchildren := childrenOf_withGrouping (d := d) hc
  refine h.add ?_ (fun _ _ => rfl) (fun _ => rfl) hchildren (fun y hy => ?_) h.noUses
  · refine h.sound.add (s := .grouping ⟨d.groupings.size⟩) (h.sound.unfrozen.withGrouping r)
      (Nat.lt_irrefl _) (fun _ => rfl) hchildren (fun t ht => ?_) (fun u hur => hu u ?_) rfl (Nat.le_refl _)
    · cases t with
      | grouping i =>
        show ((d.withGrouping r).grouping i).uses = (d.grouping i).uses
        rw [grouping_withGrouping, if_neg]
        rintro hi
        exact ht (by cases i; cases hi; rfl)
      | _ => rfl
    · change u ∈ ((d.withGrouping r).grouping ⟨d.groupings.size⟩).uses at hur
      rwa [grouping_withGrouping_self] at hur
  · cases y with
    | grouping i =>
      show ((d.withGrouping r).grouping i).facts.path = _
      rw [grouping_withGrouping, if_neg (Nat.ne_of_lt hy)]
      rfl
    | _ => rfl

theorem Orderly.addAugment (h : d.Orderly) {r : AugmentDraft} (hc : r.children = [])
    (hu : ∀ u ∈ r.uses, u.index < d.uses.size) : (d.withAugment r).Orderly := by
  have hchildren := childrenOf_withAugment (d := d) hc
  have he := Extends.withAugment d r
  refine h.add ?_ (fun _ _ => rfl) (fun _ => rfl) hchildren (fun y hy => he.pathOf hy) h.noUses
  refine h.sound.add (s := .augment ⟨d.augments.size⟩) (h.sound.unfrozen.withAugment r)
    (Nat.lt_irrefl _) (fun _ => rfl) hchildren (fun t ht => ?_) (fun u hur => hu u ?_) rfl he.augments_le
  · cases t with
    | augment i =>
      show ((d.withAugment r).augment i).uses = (d.augment i).uses
      rw [augment_withAugment, if_neg]
      rintro hi
      exact ht (by cases i; cases hi; rfl)
    | _ => rfl
  · change u ∈ ((d.withAugment r).augment ⟨d.augments.size⟩).uses at hur
    rwa [augment_withAugment_self] at hur

theorem Orderly.addUses (h : d.Orderly) {r : UsesDraft}
    (ha : ∀ a ∈ r.augmentations, a.index < d.augments.size) : (d.withUses r).Orderly := by
  refine h.add ?_ (fun _ _ => rfl) (fun _ => rfl) (fun _ => rfl) (fun _ _ => rfl) h.noUses
  exact h.sound.withUses d.HasItem (fun _ _ _ hy => h.sound.hasItem_of_contains hy) (fun _ hx => hx) ha

/-- An edit keeps a draft orderly; where it fails it was refused, and has changed nothing. -/
theorem Op.ends_run (h : d.Orderly) (op : Op) (hop : op.Allowed d) :
    Ends op.run d (fun _ d' => d'.Orderly) fun _ d' => op.Refused d ∧ d' = d := by
  cases op with
  | addModule r =>
    rw [run, ends_discard]
    unfold Draft.addModule
    rw [ends_bind, ends_get]
    by_cases htaken : (d.moduleOf? r.facts.identity).isSome = true
    · rw [if_pos htaken, ends_bind, ends_throw]
      exact ⟨htaken, rfl⟩
    · rw [if_neg htaken]
      exact h.addModule hop.1 hop.2
  | addNode kind name =>
    rw [run, ends_discard, ends_addNode]
    exact h.withNode rfl rfl rfl
  | addGrouping r =>
    rw [run, ends_discard, ends_addGrouping]
    exact h.addGrouping hop.1 hop.2
  | addAugment r =>
    rw [run, ends_discard, ends_addAugment]
    exact h.addAugment hop.1 hop.2
  | addUses r =>
    rw [run, ends_discard, ends_addUses]
    exact h.addUses hop
  | attach s c =>
    obtain ⟨hs, hlt, hparent, hsc⟩ := hop
    rw [run, ends_discard]
    refine (ends_attach h.sound hs (h.loose hlt hparent) ?_ ?_).mono ?_ ?_
    · rintro ⟨i, hi, hic⟩
      cases hi
      exact hsc hic
    · rintro _ ⟨i, rfl, hic⟩
      exact hasSite_of_under hic hlt
    · rintro r d' ⟨-, hatt⟩
      exact hatt.orderly h hlt hparent hs hsc
    · rintro f d' ⟨hacc, rfl, -⟩
      exact ⟨hacc, rfl⟩
  | detach c =>
    rw [run]
    unfold Draft.detach
    rw [ends_bind, ends_get]
    exact (ends_detachUpTo_orderly _ h c).mono (fun _ _ h => h) fun _ _ hE => hE.elim
  | copyNode style source =>
    rw [run, ends_discard]
    refine (ends_copyNode_furnished h.sound hop).mono ?_ fun _ _ hE => hE.elim
    rintro c d' ⟨⟨hg, -⟩, hf⟩
    exact hg.orderly h hf
  | copyUses style source =>
    rw [run, ends_discard]
    refine (ends_copyUses_furnished h.sound hop).mono ?_ fun _ _ hE => hE.elim
    rintro u d' ⟨⟨hg, -⟩, hf⟩
    exact hg.orderly h hf
  | copyAugment style source =>
    rw [run, ends_discard]
    refine (ends_copyAugment_furnished h.sound hop).mono ?_ fun _ _ hE => hE.elim
    rintro a d' ⟨hg, hf⟩
    exact hg.orderly h hf

/-! ## Any edits -/

theorem Assembled.orderly (h : d.Assembled) : d.Orderly := by
  induction h with
  | empty => exact .empty
  | step op _ hallowed hrun ih => exact (op.ends_run ih hallowed).of_ok hrun

/-- Whatever edits a draft was put together by, it is a forest in which every node has the path of its
place. -/
theorem Assembled.forest (h : d.Assembled) : d.Forest := h.orderly.forest_of

/-- A leaf is attached to a choice, which puts a shorthand case around it; the choice is attached to a
grouping and copied; and the leaf is taken out again, which takes out the case. -/
theorem forest_of_choice_in_grouping : ∃ d : Draft, d.Assembled ∧
    d.childrenOf (.grouping ⟨0⟩) = [⟨0⟩] ∧ d.childrenOf (.node ⟨0⟩) = [] ∧
    d.childrenOf (.node ⟨3⟩) = [⟨4⟩] ∧ d.childrenOf (.node ⟨4⟩) = [⟨5⟩] ∧ d.Forest := by
  have h₁ := Assembled.empty.next (.addNode (.choice none) ⟨default, "ch"⟩) trivial rfl
  have h₂ := h₁.next (.addNode .leaf ⟨default, "x"⟩) trivial rfl
  have h₃ := h₂.next (.addGrouping { facts := { name := ⟨default, "g"⟩, path := .root } })
    ⟨rfl, fun u hu => (by cases hu)⟩ rfl
  have h₄ := h₃.next (.attach (.node ⟨0⟩) ⟨1⟩)
    ⟨(by decide : 0 < 2), (by decide : 1 < 2), rfl, not_under_of_parent_none rfl (by decide)⟩ rfl
  have h₅ := h₄.next (.attach (.grouping ⟨0⟩) ⟨0⟩)
    ⟨(by decide : 0 < 1), (by decide : 0 < 3), rfl, fun hu => (by cases hu)⟩ rfl
  have h₆ := h₅.next (.copyNode {} ⟨0⟩) (by decide : 0 < 3) rfl
  have h₇ := h₆.next (.detach ⟨1⟩) (by decide : 1 < 6) rfl
  exact ⟨_, h₇, rfl, rfl, rfl, rfl, h₇.forest⟩

end Draft

end YangSchema
