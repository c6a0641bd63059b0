import YangSchema.Proofs.Declaration.Homes
import YangSchema.Proofs.Inference.Strokes

/-!
# What belongs to which module

In a run what was declared stays where it was declared, and everything else that comes about is a copy
(`Draft.Retains`).  Copies that are brought in by a uses are bound to the module of the uses; copies that
are merged in keep their names, are marked, and never stand at the top of a module.  So below a module
whatever is not named in it is marked as merged in (`Draft.Belongs`).
-/

namespace YangSchema

open Draft Edit Relation

variable {S : Stage} {d₀ d d₁ : Draft} {style : CopyStyle} {s x y : Site} {b : Owner} {P : Item → Prop}
  {i : NodeId} {m : ModuleId}

namespace Draft

/-! ## What was declared, and copies -/

/-- What was declared in `d₀` is in `d` where it was, and all else in `d` is copied.  Shorthand cases
are left out: what they are is up to the nodes in them. -/
structure Retains (d₀ d : Draft) : Prop where
  sound : d.Sound
  hasItem : ∀ x, d₀.HasItem x → d.HasItem x
  contains : ∀ x y, d.Contains y x → d₀.Contains y x ∨ ¬ d₀.HasItem y
  parent : ∀ i, d₀.HasSite (.node i) → (d.node i).parent = (d₀.node i).parent
  groupingsAt : ∀ t, d₀.HasSite t → d.groupingsAt t = d₀.groupingsAt t
  facts : ∀ m, (d.module m).facts = (d₀.module m).facts
  tops : ∀ m, (d.module m).augmentations = (d₀.module m).augmentations
  copied : ∀ i, d.HasSite (.node i) → (d.node i).kind ≠ .caseNode true → (d.node i).origin = none →
    d₀.HasSite (.node i)
  augments : ∀ a, d.HasSite (.augment a) → (d.augment a).origin = none → d₀.HasSite (.augment a)

theorem Retains.refl (hd : d.Sound) : d.Retains d where
  sound := hd
  hasItem _ h := h
  contains _ _ h := .inl h
  parent _ _ := rfl
  groupingsAt _ _ := rfl
  facts _ := rfl
  tops _ := rfl
  copied _ h _ _ := h
  augments _ h _ := h

theorem Retains.annotated (h : d₀.Retains d) (ha : Annotated d d₁) : d₀.Retains d₁ where
  sound := ha.sound h.sound
  hasItem x hx := (ha.hasItem_iff x).2 (h.hasItem x hx)
  contains x y hy := h.contains x y (ha.contains ▸ hy)
  parent i hi := (ha.parent i).trans (h.parent i hi)
  groupingsAt t ht := (ha.groupingsAt t).trans (h.groupingsAt t ht)
  facts m := by rw [ha.module, h.facts]
  tops m := by rw [ha.module, h.tops]
  copied i hi hkind ho := by
    rw [ha.kind] at hkind
    rw [ha.origin] at ho
    exact h.copied i ((ha.hasItem_iff (.site (.node i))).1 hi) hkind ho
  augments a hlt ho := by
    rw [ha.augment] at ho
    exact h.augments a ((ha.hasItem_iff (.site (.augment a))).1 hlt) ho

theorem Implanted.groupingsAt (h : Implanted style s P d d₁) (hx : d.HasSite x) :
    d₁.groupingsAt x = d.groupingsAt x := by
  cases x with
  | module m => exact (congrArg ModuleDraft.groupings (h.module m) :)
  | node i => exact (congrArg NodeDraft.groupings (h.node i hx) :)
  | grouping g => exact (congrArg GroupingDraft.groupings (h.grouping g) :)
  | augment a => rfl

theorem Retains.plant (h : d₀.Retains d) (hplant : S.Plant d d₁) : d₀.Retains d₁ := by
  obtain ⟨style, s, b, -, -, -, himplanted⟩ := hplant
  have hold : ∀ t, d₀.HasSite t → d.HasSite t := fun t => h.hasItem (.site t)
  refine {
    sound := himplanted.sound
    hasItem := fun x hx => himplanted.hasItem (h.hasItem x hx)
    contains := fun x y hy => ?_
    parent := fun i hi => ?_
    groupingsAt := fun t ht => (himplanted.groupingsAt (hold t ht)).trans (h.groupingsAt t ht)
    facts := fun m => ?_
    tops := fun m => ?_
    copied := fun i hi hkind ho => ?_
    augments := fun a hlt ho => ?_ }
  · rcases himplanted.put x y hy with hy | ⟨hnew, -⟩
    · exact h.contains x y hy
    · exact .inr fun hy => hnew (h.hasItem y hy)
  · rw [himplanted.node i (hold _ hi)]
    exact h.parent i hi
  · rw [himplanted.module]
    exact h.facts m
  · rw [himplanted.module]
    exact h.tops m
  · by_cases hlt : i.index < d.nodes.size
    · rw [himplanted.node i hlt] at hkind ho
      exact h.copied i hlt hkind ho
    · rcases himplanted.copied i (Nat.not_lt.1 hlt) hi with hwrap | ⟨o, -, hcopy⟩
      · exact absurd hwrap.kind hkind
      · cases hcopy.origin.symm.trans ho
  · by_cases hold : a.index < d.augments.size
    · rw [himplanted.augment a hold] at ho
      exact h.augments a hold ho
    · obtain ⟨o, -, horigin⟩ := himplanted.augments a (Nat.not_lt.1 hold) hlt
      cases horigin.symm.trans ho

theorem Retains.strokes (h : d₀.Retains d) (hstrokes : S.Strokes d d₁) : d₀.Retains d₁ :=
  hstrokes.rule h.sound plant annotated h

/-! ### Homes of what is found -/

namespace Retains

variable (h : d₀.Retains d) (hhomely : d₀.Homely)
include h

theorem under_iff (h₀ : d₀.Sound) (hx : d₀.HasSite x) : d.Under x y ↔ d₀.Under x y :=
  h₀.under_iff_of_parent h.parent hx

/-- What is above something that was declared was declared. -/
theorem hasSite_of_under (h₀ : d₀.Sound) (hx : d₀.HasSite x) (hxy : d.Under x y) : d₀.HasSite y :=
  h₀.hasSite_above ((h.under_iff h₀ hx).1 hxy) hx

include hhomely

/-- A declared node has the home of the site that lists it. -/
theorem homeAt_child (hi : i ∈ d.childrenOf s) (hnode : d₀.HasSite (.node i)) :
    d₀.homeAt (.node i) = d₀.homeAt s := by
  rcases h.contains _ _ (contains_site.2 (.inl ⟨i, hi, rfl⟩)) with hold | hnew
  · obtain ⟨c, hc, heq⟩ | ⟨u, -, heq⟩ := contains_site.1 hold
    · cases heq
      exact hhomely.children s _ hc
    · cases heq
  · exact absurd hnode hnew

/-- A declared augmentation in a uses has the home of the site that lists the uses. -/
theorem homeAt_inner {u : UsesId} {a : AugmentId} (hu : u ∈ d.usesAt s)
    (ha : a ∈ (d.usesOf u).augmentations) (haugment : d₀.HasSite (.augment a)) :
    d₀.homeAt (.augment a) = d₀.homeAt s := by
  rcases h.contains _ _ (contains_uses.2 ⟨a, ha, rfl⟩) with hold | hnew
  · obtain ⟨a', ha', heq⟩ := contains_uses.1 hold
    cases heq
    rcases h.contains _ _ (contains_site.2 (.inr ⟨u, hu, rfl⟩)) with hlisted | hnew
    · obtain ⟨c, -, heq⟩ | ⟨v, hv, heq⟩ := contains_site.1 hlisted
      · cases heq
      · cases heq
        exact hhomely.inner s u hv a ha'
    · exact absurd (Draft.hasItem_of_contains hold) hnew
  · exact absurd haugment hnew

end Retains

/-! ## Below modules -/

/-- Below the modules of `d₀` a node is named in its module, or it was merged in; a node at the top is
named in its module. -/
def Belongs (d₀ d : Draft) : Prop :=
  ∀ m i, d₀.HasSite (.module m) → d.Under (.node i) (.module m) → (d.node i).kind ≠ .caseNode true →
    (d.node i).name.owner = d₀.homeAt (.module m) ∨
      (d.node i).facts.augmenting = true ∧ (d.node i).parent ≠ some (.module m)

theorem Homely.belongs (h : d.Homely) (hd : d.Sound) : d.Belongs d :=
  fun _ _ _ hi _ => .inl (h.under hd hi)

theorem Belongs.annotated (h : d₀.Belongs d) (hd : d.Sound) (ha : Annotated d d₁) : d₀.Belongs d₁ := by
  intro m i hm hi hkind
  rw [ha.kind] at hkind
  rw [ha.name, ha.augmenting, ha.parent]
  refine h m i hm ?_ hkind
  cases hi with
  | up hp hrest =>
    rw [ha.parent] at hp
    exact .up hp ((hd.under_iff_of_parent (fun j _ => ha.parent j) (hd.hasSite_parent hp)).1 hrest)

/-- Something new stands below an old site only if what was planted goes there. -/
theorem Implanted.under_of_new (h : Implanted style s P d d₁) (hd : d.Sound) (hx : d.HasSite x)
    (hyx : d₁.Under y x) (hnew : ¬ d.HasSite y) : d₁.Under s x := by
  induction hyx with
  | refl => exact absurd hx hnew
  | @up i p x hp hpx ih =>
    have hc : d₁.Contains (.site (.node i)) (.site p) :=
      contains_site.2 (.inl ⟨i, (h.sound.parent_iff p i).2 hp, rfl⟩)
    rcases h.put _ _ hc with hold | ⟨-, heq | hp⟩
    · exact absurd (hd.hasItem_of_contains hold) hnew
    · cases heq
      exact hpx
    · exact ih hx hp

/-- The parent of something new is the site, or new. -/
theorem Implanted.parent_of_new (h : Implanted style s P d d₁) (hd : d.Sound)
    (hnew : ¬ d.HasSite (.node i)) (hp : (d₁.node i).parent = some x) (hx : d.HasSite x) : x = s := by
  have hc : d₁.Contains (.site (.node i)) (.site x) :=
    contains_site.2 (.inl ⟨i, (h.sound.parent_iff x i).2 hp, rfl⟩)
  rcases h.put _ _ hc with hold | ⟨-, heq | hx'⟩
  · exact absurd (hd.hasItem_of_contains hold) hnew
  · exact Item.site.inj heq
  · exact absurd hx hx'

/-- Where copies go below a module they are bound to it, or they are marked as merged in and stand
deeper. -/
theorem belongs_of_brings (hhomely : S.draft.Homely) (h₀ : S.draft.Sound)
    (hstands : ∀ t ∈ S.uses, t.Stands S.draft) (h : S.draft.Retains d) (hb : S.Brings d style s b)
    (hs : d.Under s (.module m)) : (∀ q, (style.name q).owner = S.draft.homeAt (.module m)) ∨
      style.augmenting = true ∧ s ≠ .module m := by
  cases hb with
  | @body t g ht hg =>
    have hsite := hstands t ht
    have hunder := (h.under_iff h₀ hsite.site).1 hs
    exact .inl fun _ => hsite.home.symm.trans (hhomely.under h₀ hunder)
  | inner => exact .inr ⟨rfl, by intro heq; cases heq⟩
  | top => exact .inr ⟨rfl, by intro heq; cases heq⟩

theorem Belongs.plant (h : S.draft.Belongs d) (hhomely : S.draft.Homely) (h₀ : S.draft.Sound)
    (hstands : ∀ t ∈ S.uses, t.Stands S.draft) (hretains : S.draft.Retains d) (hplant : S.Plant d d₁) :
    S.draft.Belongs d₁ := by
  obtain ⟨style, s, b, hd, hb, hs, himplanted⟩ := hplant
  intro m i hm hi hkind
  have hm' : d.HasSite (.module m) := hretains.hasItem (.site (.module m)) hm
  have hunder : ∀ {x}, d.HasSite x → d₁.Under x (.module m) → d.Under x (.module m) := fun hx hu =>
    (hd.under_iff_of_parent (fun j hj => by rw [himplanted.node j hj]) hx).1 hu
  by_cases hold : i.index < d.nodes.size
  · have hrecord := himplanted.node i hold
    rw [hrecord] at hkind ⊢
    exact h m i hm (hunder (x := .node i) hold hi) hkind
  · have hlt : i.index < d₁.nodes.size := lt_of_under hi (by intro j heq; cases heq)
    have hsm := hunder hs (himplanted.under_of_new hd hm' hi hold)
    rcases himplanted.copied i (Nat.not_lt.1 hold) hlt with hwrap | ⟨o, -, hcopy⟩
    · exact absurd hwrap.kind hkind
    rcases belongs_of_brings hhomely h₀ hstands hretains hb hsm with hname | ⟨haug, hne⟩
    · rw [hcopy.name]
      exact .inl (hname _)
    · refine .inr ⟨?_, fun hp => hne (himplanted.parent_of_new hd hold hp hm').symm⟩
      rw [hcopy.node]
      show ((d.node o).facts.augmenting || style.augmenting) = true
      rw [haug, Bool.or_true]

theorem Belongs.strokes (hhomely : S.draft.Homely) (h₀ : S.draft.Sound)
    (hstands : ∀ t ∈ S.uses, t.Stands S.draft) (hstrokes : S.Strokes S.draft d) :
    S.draft.Belongs d := by
  suffices H : S.draft.Retains d ∧ S.draft.Belongs d from H.2
  refine hstrokes.rule (P := fun d => S.draft.Retains d ∧ S.draft.Belongs d) h₀ ?_ ?_
    ⟨.refl h₀, hhomely.belongs h₀⟩
  · rintro d d₁ ⟨hretains, hbelongs⟩ hplant
    exact ⟨hretains.plant hplant, hbelongs.plant hhomely h₀ hstands hretains hplant⟩
  · rintro d d₁ ⟨hretains, hbelongs⟩ ha
    exact ⟨hretains.annotated ha, hbelongs.annotated hretains.sound ha⟩

end Draft

end YangSchema
