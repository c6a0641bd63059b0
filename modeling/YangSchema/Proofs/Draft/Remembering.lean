import YangSchema.Proofs.Draft.Freezing
import YangSchema.Proofs.Draft.Recalling

/-!
# Snapshots that are remembered

As long as a draft is only frozen its records stay, and so does what plain freezing makes of them.  If
every snapshot that is taken is the plain one (`Draft.Remembers`), then what freezing answers is what plain
freezing makes, fault or snapshot, and afterwards every snapshot is the plain one again
(`Answers.freeze`).
-/

namespace YangSchema

/-- A shelf on which there is no snapshot. -/
theorem Shelf.isFrozen_of_all {ρ σ : Type} {s : Shelf ρ σ} {i : Nat}
    (h : s.slots.toList.all (·.snapshot.isNone) = true) : s.isFrozen i = false := by
  rw [isFrozen, snapshot?]
  cases hi : s.slots[i]? with
  | none => rfl
  | some slot =>
    have hslot := List.all_eq_true.1 h slot (Array.mem_toList_iff.2 (Array.mem_of_getElem? hi))
    rw [Option.isNone_iff_eq_none] at hslot
    simp [hslot]

namespace Draft

open Edit

variable {d₀ d d₁ : Draft} {x : Item} {α β σ : Type} {fuel : Nat}

/-! ## Drafts that are only frozen -/

/-- The records of `d` are those of `d₀`, and the snapshots are what plain freezing makes of them. -/
structure Remembers (d₀ d : Draft) : Prop where
  node : ∀ i, d.node i = d₀.node i
  grouping : ∀ i, d.grouping i = d₀.grouping i
  uses : ∀ i, d.usesOf i = d₀.usesOf i
  augment : ∀ i, d.augment i = d₀.augment i
  module : ∀ i, d.module i = d₀.module i
  nodes_size : d.nodes.size = d₀.nodes.size
  size : d.size = d₀.size
  taken : ∀ x v, d.taken? x = some v → d₀.plain x = .ok v

namespace Remembers

/-- A draft without snapshots has no wrong ones. -/
theorem of_unfrozen (h : d.Unfrozen) : Remembers d d where
  node _ := rfl
  grouping _ := rfl
  uses _ := rfl
  augment _ := rfl
  module _ := rfl
  nodes_size := rfl
  size := rfl
  taken x v hv := by
    have none {ρ σ : Type} {s : Shelf ρ σ} {i : Nat} {c : σ → Snapshot} (hs : s.isFrozen i = false)
        (h : (s.snapshot? i).map c = some v) : False := by
      rw [Shelf.isFrozen, Option.isSome_eq_false_iff, Option.isNone_iff_eq_none] at hs
      rw [hs] at h
      cases h
    rcases x with (i | i | i | i) | i
    · exact (none (h.modules _) hv).elim
    · exact (none (h.nodes _) hv).elim
    · exact (none (h.groupings _) hv).elim
    · exact (none (h.augments _) hv).elim
    · exact (none (h.uses _) hv).elim

/-- `config` is read off the records alone. -/
theorem effectiveConfig (h : Remembers d₀ d) (i : NodeId) : d.effectiveConfig i = d₀.effectiveConfig i :=
  effectiveConfig_congr h.node h.nodes_size i

theorem store (h : Remembers d₀ d) {v : Snapshot} {i : Nat} (hv : d₀.plain (v.item i) = .ok v) :
    Remembers d₀ (d.store i v) := by
  have htaken : ∀ x w, (d.store i v).taken? x = some w → d₀.plain x = .ok w := by
    intro x w hw
    by_cases hx : x = v.item i
    · subst hx
      rw [taken?_store_self (hasItem_store.1 (hasItem_of_taken? hw))] at hw
      cases hw
      exact hv
    · rw [taken?_store_of_ne hx] at hw
      exact h.taken x w hw
  have hsize : (d.store i v).size = d₀.size := by
    rw [← h.size]
    cases v <;> simp only [Draft.size, Draft.store, Shelf.size_freeze]
  have hread {ρ σ : Type} [Inhabited ρ] {s : Shelf ρ σ} {j : Nat} {v : σ} :
      (s.freeze i v).read j = s.read j := Shelf.read_freeze ..
  cases v with
  | node v =>
    exact { h with
      node := fun j => hread.trans (h.node j)
      nodes_size := (Shelf.size_freeze ..).trans h.nodes_size
      size := hsize
      taken := htaken }
  | grouping v => exact { h with grouping := fun j => hread.trans (h.grouping j), size := hsize, taken := htaken }
  | uses v => exact { h with uses := fun j => hread.trans (h.uses j), size := hsize, taken := htaken }
  | augment v => exact { h with augment := fun j => hread.trans (h.augment j), size := hsize, taken := htaken }
  | module v => exact { h with module := fun j => hread.trans (h.module j), size := hsize, taken := htaken }

end Remembers

/-! ## Answers -/

/-- While a draft is only frozen, the edit `e` comes to `r`. -/
def Answers (d₀ : Draft) (e : Edit α) (r : Except Fault α) : Prop :=
  ∀ d, Remembers d₀ d → Ends e d (fun v d' => Remembers d₀ d' ∧ r = .ok v)
    fun f d' => Remembers d₀ d' ∧ r = .error f

namespace Answers

theorem pure (a : α) : Answers d₀ (Pure.pure a) (Pure.pure a) := fun _ h => ⟨h, rfl⟩

theorem throw (f : Fault) : Answers d₀ (MonadExcept.throw f : Edit α) (MonadExcept.throw f) :=
  fun _ h => ⟨h, rfl⟩

theorem bind {e : Edit β} {k : β → Edit α} {r : Except Fault β} {s : β → Except Fault α}
    (he : Answers d₀ e r) (hk : ∀ b, Answers d₀ (k b) (s b)) : Answers d₀ (e >>= k) (r >>= s) := by
  intro d h
  rw [ends_bind]
  refine (he d h).mono (fun b d₁ hb => ?_) fun f d₁ hf => ⟨hf.1, by rw [hf.2]; rfl⟩
  rw [hb.2]
  exact hk b d₁ hb.1

/-- What is read from the draft is read from its records. -/
theorem get {k : Draft → Edit α} {r : Except Fault α} (h : ∀ d, Remembers d₀ d → Answers d₀ (k d) r) :
    Answers d₀ (MonadState.get >>= k) r := by
  intro d hd
  rw [ends_bind, ends_get]
  exact h d hd d hd

theorem map {e : Edit β} {r : Except Fault β} {f : β → α} (he : Answers d₀ e r) :
    Answers d₀ (f <$> e) (f <$> r) := by
  rw [map_eq_pure_bind, map_eq_pure_bind]
  exact he.bind fun b => pure (f b)

theorem mapM {f : α → Edit β} {g : α → Except Fault β} {l : List α}
    (h : ∀ x ∈ l, Answers d₀ (f x) (g x)) : Answers d₀ (l.mapM f) (l.mapM g) := by
  induction l with
  | nil => exact pure []
  | cons x l ih =>
    rw [List.mapM_cons, List.mapM_cons]
    exact (h x (by simp)).bind fun v =>
      (ih fun y hy => h y (List.mem_cons_of_mem _ hy)).bind fun vs => pure (v :: vs)

theorem optionMapM {f : α → Edit β} {g : α → Except Fault β} {o : Option α}
    (h : ∀ x, o = some x → Answers d₀ (f x) (g x)) : Answers d₀ (o.mapM f) (o.mapM g) := by
  cases o with
  | none => exact pure none
  | some x => exact (h x rfl).map

/-- It makes no difference whether a snapshot is recalled. -/
theorem recallOr {p : ShelfPlace σ x} {make : Edit σ} {r : Except Fault σ} (h : Answers d₀ make r)
    (hr : d₀.plain x = p.wrap <$> r) : Answers d₀ (recallOr p make) r := by
  have hok : ∀ v, d₀.plain x = .ok (p.wrap v) → r = .ok v := by
    intro v hv
    rw [hr] at hv
    cases r with
    | error f => cases hv
    | ok w => rw [p.inj w v (Except.ok.inj hv)]
  intro d hd
  rw [Draft.recallOr, ends_bind, ends_get]
  split
  · next v hv => exact ⟨hd, hok v (hd.taken x _ (by rw [p.taken?, hv]; rfl))⟩
  · rw [ends_bind]
    refine (h d hd).mono (fun v d₁ h₁ => ⟨h₁.1.store ?_, h₁.2⟩) fun _ _ h => h
    rw [p.item, hr, h₁.2]
    rfl

end Answers

/-! ## Freezing -/

/-- In so many steps down, whatever ends in them is frozen as plain freezing does it. -/
structure FreezeAnswers (d₀ : Draft) (fuel : Nat) : Prop where
  node : ∀ i, d₀.HasItem (.site (.node i)) → Nests d₀.Refers fuel (.site (.node i)) →
    Answers d₀ (freezeNodeUpTo fuel i) (d₀.plainNode i)
  grouping : ∀ i, d₀.HasItem (.site (.grouping i)) → Nests d₀.Refers fuel (.site (.grouping i)) →
    Answers d₀ (freezeGroupingUpTo fuel i) (d₀.plainGrouping i)
  uses : ∀ i, d₀.HasItem (.uses i) → Nests d₀.Refers fuel (.uses i) →
    Answers d₀ (freezeUsesUpTo fuel i) (d₀.plainUses i)
  augment : ∀ i, d₀.HasItem (.site (.augment i)) → Nests d₀.Refers fuel (.site (.augment i)) →
    Answers d₀ (freezeAugmentUpTo fuel i) (d₀.plainAugment i)

namespace FreezeAnswers

variable (ih : FreezeAnswers d₀ fuel) (h : d₀.Acyclic)
include ih h

/-! What a definition `x` refers to is frozen in one step less. -/

section Lists

variable (hx : Nests d₀.Refers (fuel + 1) x)
include hx

theorem nodes {l : List NodeId} (hl : ∀ i ∈ l, d₀.Refers (.site (.node i)) x) :
    Answers d₀ (l.mapM (freezeNodeUpTo fuel)) (l.mapM d₀.plainNode) :=
  .mapM fun i hi => ih.node i (h.hasItem _ _ (hl i hi)) (hx.down (hl i hi))

theorem groupings {l : List GroupingId} (hl : ∀ i ∈ l, d₀.Refers (.site (.grouping i)) x) :
    Answers d₀ (l.mapM (freezeGroupingUpTo fuel)) (l.mapM d₀.plainGrouping) :=
  .mapM fun i hi => ih.grouping i (h.hasItem _ _ (hl i hi)) (hx.down (hl i hi))

theorem usesOf {l : List UsesId} (hl : ∀ i ∈ l, d₀.Refers (.uses i) x) :
    Answers d₀ (l.mapM (freezeUsesUpTo fuel)) (l.mapM d₀.plainUses) :=
  .mapM fun i hi => ih.uses i (h.hasItem _ _ (hl i hi)) (hx.down (hl i hi))

theorem augments {l : List AugmentId} (hl : ∀ i ∈ l, d₀.Refers (.site (.augment i)) x) :
    Answers d₀ (l.mapM (freezeAugmentUpTo fuel)) (l.mapM d₀.plainAugment) :=
  .mapM fun i hi => ih.augment i (h.hasItem _ _ (hl i hi)) (hx.down (hl i hi))

end Lists

theorem succ : FreezeAnswers d₀ (fuel + 1) where
  node i hi hn := by
    rw [freezeNodeUpTo_succ]
    refine .recallOr ?_ rfl
    rw [h.plainNode_eq hi, makeNode]
    refine .get fun d hd => ?_
    rw [hd.node, hd.effectiveConfig]
    refine (ih.nodes h hn fun c hc => .child (s := .node i) hc).bind fun children => ?_
    refine (ih.augments h hn fun a ha => .merged (s := .node i) ha).bind fun augmentations => ?_
    split
    · cases children with
      | nil => exact .throw _
      | cons child _ => exact .pure _
    · next hk =>
      have hk : d₀.isShorthand (.node i) = false := Bool.eq_false_iff.2 hk
      refine (Answers.optionMapM fun o ho => ?_).bind fun origin => ?_
      · have ho : d₀.Refers (.site (.node o)) (.site (.node i)) := .origin hk ho
        exact ih.node o (h.hasItem _ _ ho) (hn.down ho)
      · refine (ih.groupings h hn fun g hg => .grouping (s := .node i) hk hg).bind fun groupings => ?_
        exact (ih.usesOf h hn fun u hu => .uses (s := .node i) hk hu).bind fun uses => .pure _
  grouping i hi hn := by
    rw [freezeGroupingUpTo_succ]
    refine .recallOr ?_ rfl
    rw [h.plainGrouping_eq hi, makeGrouping]
    refine .get fun d hd => ?_
    rw [hd.grouping]
    refine (ih.nodes h hn fun c hc => .child (s := .grouping i) hc).bind fun children => ?_
    refine (ih.groupings h hn fun g hg => .grouping (s := .grouping i) rfl hg).bind fun groupings => ?_
    exact (ih.usesOf h hn fun u hu => .uses (s := .grouping i) rfl hu).bind fun uses => .pure _
  uses i hi hn := by
    rw [freezeUsesUpTo_succ]
    refine .recallOr ?_ rfl
    rw [h.plainUses_eq hi, makeUses]
    refine .get fun d hd => ?_
    rw [hd.uses]
    exact (ih.augments h hn fun a ha => .inner ha).bind fun augmentations => .pure _
  augment i hi hn := by
    rw [freezeAugmentUpTo_succ]
    refine .recallOr ?_ rfl
    rw [h.plainAugment_eq hi, makeAugment]
    refine .get fun d hd => ?_
    rw [hd.augment]
    refine (Answers.optionMapM fun o ho => ?_).bind fun origin => ?_
    · have ho : d₀.Refers (.site (.augment o)) (.site (.augment i)) := .augmentOrigin ho
      exact ih.augment o (h.hasItem _ _ ho) (hn.down ho)
    · refine (ih.nodes h hn fun c hc => .child (s := .augment i) hc).bind fun children => ?_
      exact (ih.usesOf h hn fun u hu => .uses (s := .augment i) rfl hu).bind fun uses => .pure _

end FreezeAnswers

theorem Acyclic.freezeAnswers (h : d₀.Acyclic) (fuel : Nat) : FreezeAnswers d₀ fuel := by
  have hzero {y : Item} (h : Nests d₀.Refers 0 y) : False := by cases h
  induction fuel with
  | zero =>
    exact ⟨fun _ _ h => (hzero h).elim, fun _ _ h => (hzero h).elim, fun _ _ h => (hzero h).elim,
      fun _ _ h => (hzero h).elim⟩
  | succ fuel ih => exact ih.succ h

/-- The number of definitions does not change while a draft is only frozen. -/
theorem Answers.sized {e : Nat → Edit α} {r : Except Fault α} (h : Answers d₀ (e d₀.size) r) :
    Answers d₀ (do e (← MonadState.get).size) r :=
  .get fun d hd => by rwa [hd.size]

namespace Acyclic

variable (h : d₀.Acyclic)
include h

theorem answers_freezeNode {i : NodeId} (hi : d₀.HasItem (.site (.node i))) :
    Answers d₀ (freezeNode i) (d₀.plainNode i) :=
  .sized (e := (freezeNodeUpTo · i)) ((h.freezeAnswers d₀.size).node i hi (h.nests hi))

theorem answers_freezeGrouping {i : GroupingId} (hi : d₀.HasItem (.site (.grouping i))) :
    Answers d₀ (freezeGrouping i) (d₀.plainGrouping i) :=
  .sized (e := (freezeGroupingUpTo · i)) ((h.freezeAnswers d₀.size).grouping i hi (h.nests hi))

theorem answers_freezeUses {i : UsesId} (hi : d₀.HasItem (.uses i)) :
    Answers d₀ (freezeUses i) (d₀.plainUses i) :=
  .sized (e := (freezeUsesUpTo · i)) ((h.freezeAnswers d₀.size).uses i hi (h.nests hi))

theorem answers_freezeAugment {i : AugmentId} (hi : d₀.HasItem (.site (.augment i))) :
    Answers d₀ (freezeAugment i) (d₀.plainAugment i) :=
  .sized (e := (freezeAugmentUpTo · i)) ((h.freezeAnswers d₀.size).augment i hi (h.nests hi))

theorem answers_freezeModule (i : ModuleId) : Answers d₀ (freezeModule i) (d₀.plainModule i) := by
  rw [freezeModule_eq]
  refine .recallOr ?_ rfl
  rw [makeModule]
  refine .get fun d hd => ?_
  rw [hd.module]
  refine Answers.bind (.mapM fun c hc => h.answers_freezeNode ?_) fun nodes => ?_
  · exact h.hasItem _ _ (.child (s := .module i) hc)
  refine Answers.bind (.mapM fun g hg => h.answers_freezeGrouping ?_) fun groupings => ?_
  · exact h.hasItem _ _ (.grouping (s := .module i) rfl hg)
  refine Answers.bind (.mapM fun a ha => h.answers_freezeAugment ?_) fun augmentations => ?_
  · exact h.hasItem _ _ (.merged (s := .module i) ha)
  refine Answers.bind (.mapM fun u hu => h.answers_freezeUses ?_) fun uses => .pure _
  exact h.hasItem _ _ (.uses (s := .module i) rfl hu)

/-- Freezing comes to what plain freezing comes to. -/
theorem answers_freeze (hx : d₀.HasItem x) : Answers d₀ (freeze x) (d₀.plain x) := by
  rcases x with (i | i | i | i) | i
  · exact (h.answers_freezeModule i).map
  · exact (h.answers_freezeNode hx).map
  · exact (h.answers_freezeGrouping hx).map
  · exact (h.answers_freezeAugment hx).map
  · exact (h.answers_freezeUses hx).map

end Acyclic

end Draft

end YangSchema
