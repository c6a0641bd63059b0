import YangSchema.Draft.Freeze
import YangSchema.Proofs.Draft.References

/-!
# Freezing without snapshots

Plain freezing is recursion down the references of a definition: nothing is kept, so a definition that
two others refer to is frozen twice.  Where references end (`Draft.Acyclic`), the number of definitions
is enough for the recursion, and then the functions satisfy equations in which no number of steps occurs
(`plainNode_eq` and its siblings).
-/

namespace YangSchema

namespace Draft

open Relation

variable {d : Draft} {m n : Nat} {x y : Item}

/-! ## The recursion -/

mutual

/-- The node `i`, frozen in at most so many steps down. -/
def plainNodeUpTo (d : Draft) : Nat → NodeId → Except Fault Node
  | 0, i => throw (.nestedInItself i.render)
  | fuel + 1, i => do
    let r := d.node i
    let children ← r.children.mapM (d.plainNodeUpTo fuel)
    let augmentations ← r.augmentations.mapM (d.plainAugmentUpTo fuel)
    if r.kind.isShorthandCase then
      match children with
      | child :: _ => return child.synthesize r.path augmentations r.facts.unknown
      | [] => throw (.internal (.emptyShorthand r.path.render))
    else
      let origin ← r.origin.mapM (d.plainNodeUpTo fuel)
      let groupings ← r.groupings.mapM (d.plainGroupingUpTo fuel)
      let uses ← r.uses.mapM (d.plainUsesUpTo fuel)
      return snapshotNode r (d.effectiveConfig i) children augmentations origin groupings uses

def plainGroupingUpTo (d : Draft) : Nat → GroupingId → Except Fault Grouping
  | 0, i => throw (.nestedInItself i.render)
  | fuel + 1, i => do
    let r := d.grouping i
    let children ← r.children.mapM (d.plainNodeUpTo fuel)
    let groupings ← r.groupings.mapM (d.plainGroupingUpTo fuel)
    let uses ← r.uses.mapM (d.plainUsesUpTo fuel)
    return { facts := r.facts, children, groupings, uses }

def plainUsesUpTo (d : Draft) : Nat → UsesId → Except Fault Uses
  | 0, i => throw (.nestedInItself i.render)
  | fuel + 1, i => do
    let r := d.usesOf i
    let augmentations ← r.augmentations.mapM (d.plainAugmentUpTo fuel)
    return { facts := r.facts, augmentations }

def plainAugmentUpTo (d : Draft) : Nat → AugmentId → Except Fault Augmentation
  | 0, i => throw (.nestedInItself i.render)
  | fuel + 1, i => do
    let r := d.augment i
    let origin ← r.origin.mapM (d.plainAugmentUpTo fuel)
    let children ← r.children.mapM (d.plainNodeUpTo fuel)
    let uses ← r.uses.mapM (d.plainUsesUpTo fuel)
    return { facts := r.facts, children, uses, origin }

end

def plainNode (d : Draft) (i : NodeId) : Except Fault Node := d.plainNodeUpTo d.size i

def plainGrouping (d : Draft) (i : GroupingId) : Except Fault Grouping := d.plainGroupingUpTo d.size i

def plainUses (d : Draft) (i : UsesId) : Except Fault Uses := d.plainUsesUpTo d.size i

def plainAugment (d : Draft) (i : AugmentId) : Except Fault Augmentation :=
  d.plainAugmentUpTo d.size i

def plainModule (d : Draft) (i : ModuleId) : Except Fault Module := do
  let r := d.module i
  let nodes ← r.children.mapM d.plainNode
  let groupings ← r.groupings.mapM d.plainGrouping
  let augmentations ← r.augmentations.mapM d.plainAugment
  let uses ← r.uses.mapM d.plainUses
  return snapshotModule r nodes groupings augmentations uses

/-! ## The number of steps -/

theorem optionMapM_congr {α β ε : Type} {f g : α → Except ε β} {o : Option α}
    (h : ∀ x, o = some x → f x = g x) : o.mapM f = o.mapM g := by
  cases o with
  | none => rfl
  | some x => rw [Option.mapM_some, Option.mapM_some, h x rfl]

/-- For what ends in both numbers of steps, plain freezing comes to the same. -/
structure PlainAgrees (d : Draft) (m n : Nat) : Prop where
  node : ∀ i, Nests d.Refers m (.site (.node i)) → Nests d.Refers n (.site (.node i)) →
    d.plainNodeUpTo m i = d.plainNodeUpTo n i
  grouping : ∀ i, Nests d.Refers m (.site (.grouping i)) → Nests d.Refers n (.site (.grouping i)) →
    d.plainGroupingUpTo m i = d.plainGroupingUpTo n i
  uses : ∀ i, Nests d.Refers m (.uses i) → Nests d.Refers n (.uses i) →
    d.plainUsesUpTo m i = d.plainUsesUpTo n i
  augment : ∀ i, Nests d.Refers m (.site (.augment i)) → Nests d.Refers n (.site (.augment i)) →
    d.plainAugmentUpTo m i = d.plainAugmentUpTo n i

namespace PlainAgrees

/-! What a definition `x` refers to is frozen alike if `x` ends in one step more. -/

section Lists

variable (ih : d.PlainAgrees m n) (hm : Nests d.Refers (m + 1) x) (hn : Nests d.Refers (n + 1) x)
include ih hm hn

theorem nodes {l : List NodeId} (h : ∀ i ∈ l, d.Refers (.site (.node i)) x) :
    l.mapM (d.plainNodeUpTo m) = l.mapM (d.plainNodeUpTo n) :=
  mapM_congr fun i hi => ih.node i (hm.down (h i hi)) (hn.down (h i hi))

theorem groupings {l : List GroupingId} (h : ∀ i ∈ l, d.Refers (.site (.grouping i)) x) :
    l.mapM (d.plainGroupingUpTo m) = l.mapM (d.plainGroupingUpTo n) :=
  mapM_congr fun i hi => ih.grouping i (hm.down (h i hi)) (hn.down (h i hi))

theorem usesOf {l : List UsesId} (h : ∀ i ∈ l, d.Refers (.uses i) x) :
    l.mapM (d.plainUsesUpTo m) = l.mapM (d.plainUsesUpTo n) :=
  mapM_congr fun i hi => ih.uses i (hm.down (h i hi)) (hn.down (h i hi))

theorem augments {l : List AugmentId} (h : ∀ i ∈ l, d.Refers (.site (.augment i)) x) :
    l.mapM (d.plainAugmentUpTo m) = l.mapM (d.plainAugmentUpTo n) :=
  mapM_congr fun i hi => ih.augment i (hm.down (h i hi)) (hn.down (h i hi))

theorem origin {o : Option NodeId} (h : ∀ i, o = some i → d.Refers (.site (.node i)) x) :
    o.mapM (d.plainNodeUpTo m) = o.mapM (d.plainNodeUpTo n) :=
  optionMapM_congr fun i hi => ih.node i (hm.down (h i hi)) (hn.down (h i hi))

theorem augmentOrigin {o : Option AugmentId} (h : ∀ i, o = some i → d.Refers (.site (.augment i)) x) :
    o.mapM (d.plainAugmentUpTo m) = o.mapM (d.plainAugmentUpTo n) :=
  optionMapM_congr fun i hi => ih.augment i (hm.down (h i hi)) (hn.down (h i hi))

end Lists

theorem succ (ih : d.PlainAgrees m n) : d.PlainAgrees (m + 1) (n + 1) where
  node i hm hn := by
    rw [plainNodeUpTo, plainNodeUpTo,
      ih.nodes (l := (d.node i).children) hm hn fun c hc => .child (s := .node i) hc,
      ih.augments (l := (d.node i).augmentations) hm hn fun a ha => .merged (s := .node i) ha]
    by_cases hk : (d.node i).kind.isShorthandCase
    · simp only [if_pos hk]
    · have hi : d.isShorthand (.node i) = false := Bool.eq_false_iff.2 hk
      rw [ih.origin hm hn fun o ho => .origin hi ho,
        ih.groupings (l := (d.node i).groupings) hm hn fun g hg => .grouping (s := .node i) hi hg,
        ih.usesOf (l := (d.node i).uses) hm hn fun u hu => .uses (s := .node i) hi hu]
  grouping i hm hn := by
    rw [plainGroupingUpTo, plainGroupingUpTo,
      ih.nodes (l := (d.grouping i).children) hm hn fun c hc => .child (s := .grouping i) hc,
      ih.groupings (l := (d.grouping i).groupings) hm hn
        fun g hg => .grouping (s := .grouping i) rfl hg,
      ih.usesOf (l := (d.grouping i).uses) hm hn fun u hu => .uses (s := .grouping i) rfl hu]
  uses i hm hn := by
    rw [plainUsesUpTo, plainUsesUpTo, ih.augments hm hn fun a ha => .inner ha]
  augment i hm hn := by
    rw [plainAugmentUpTo, plainAugmentUpTo, ih.augmentOrigin hm hn fun o ho => .augmentOrigin ho,
      ih.nodes (l := (d.augment i).children) hm hn fun c hc => .child (s := .augment i) hc,
      ih.usesOf (l := (d.augment i).uses) hm hn fun u hu => .uses (s := .augment i) rfl hu]

end PlainAgrees

theorem plainAgrees (d : Draft) (m n : Nat) : d.PlainAgrees m n := by
  have hzero {y : Item} (h : Nests d.Refers 0 y) : False := by cases h
  induction m generalizing n with
  | zero =>
    exact ⟨fun _ h => (hzero h).elim, fun _ h => (hzero h).elim, fun _ h => (hzero h).elim,
      fun _ h => (hzero h).elim⟩
  | succ m ih =>
    cases n with
    | zero =>
      exact ⟨fun _ _ h => (hzero h).elim, fun _ _ h => (hzero h).elim, fun _ _ h => (hzero h).elim,
        fun _ _ h => (hzero h).elim⟩
    | succ n => exact (ih n).succ

/-! ## Equations -/

/-- What is referred to is there, and references lead back to no definition. -/
structure Acyclic (d : Draft) : Prop where
  hasItem : ∀ x y, d.Refers y x → d.HasItem y
  acyclic : ∀ x, ¬ TransGen d.Refers x x

namespace Acyclic

variable (h : d.Acyclic)
include h

/-- References lead on no further than there are definitions. -/
theorem nests (hx : d.HasItem x) : Nests d.Refers d.size x := by
  have hlt : ∀ x, d.HasItem x → d.itemNumber x < d.size := fun x => itemNumber_lt
  have hinj : ∀ x y, d.HasItem x → d.HasItem y → d.itemNumber x = d.itemNumber y → x = y :=
    fun x y => itemNumber_inj
  have hdown : ∀ x y, d.HasItem x → d.Refers y x → d.HasItem y := fun x y _ => h.hasItem x y
  refine .of_acc hdown d.itemNumber hlt hinj hx ?_
  exact acc_of_acyclic hdown d.itemNumber hlt hinj (fun x _ => h.acyclic x) hx

theorem plainNode_eq {i : NodeId} (hi : d.HasItem (.site (.node i))) :
    d.plainNode i = do
      let r := d.node i
      let children ← r.children.mapM d.plainNode
      let augmentations ← r.augmentations.mapM d.plainAugment
      if r.kind.isShorthandCase then
        match children with
        | child :: _ => return child.synthesize r.path augmentations r.facts.unknown
        | [] => throw (.internal (.emptyShorthand r.path.render))
      else
        let origin ← r.origin.mapM d.plainNode
        let groupings ← r.groupings.mapM d.plainGrouping
        let uses ← r.uses.mapM d.plainUses
        return snapshotNode r (d.effectiveConfig i) children augmentations origin groupings uses := by
  calc d.plainNode i = d.plainNodeUpTo (d.size + 1) i :=
        (plainAgrees d _ _).node i (h.nests hi) ((h.nests hi).mono (Nat.le_succ _))
    _ = _ := by rw [plainNodeUpTo]; rfl

theorem plainGrouping_eq {i : GroupingId} (hi : d.HasItem (.site (.grouping i))) :
    d.plainGrouping i = do
      let r := d.grouping i
      let children ← r.children.mapM d.plainNode
      let groupings ← r.groupings.mapM d.plainGrouping
      let uses ← r.uses.mapM d.plainUses
      return { facts := r.facts, children, groupings, uses } := by
  calc d.plainGrouping i = d.plainGroupingUpTo (d.size + 1) i :=
        (plainAgrees d _ _).grouping i (h.nests hi) ((h.nests hi).mono (Nat.le_succ _))
    _ = _ := by rw [plainGroupingUpTo]; rfl

theorem plainUses_eq {i : UsesId} (hi : d.HasItem (.uses i)) :
    d.plainUses i = do
      let r := d.usesOf i
      let augmentations ← r.augmentations.mapM d.plainAugment
      return { facts := r.facts, augmentations } := by
  calc d.plainUses i = d.plainUsesUpTo (d.size + 1) i :=
        (plainAgrees d _ _).uses i (h.nests hi) ((h.nests hi).mono (Nat.le_succ _))
    _ = _ := by rw [plainUsesUpTo]; rfl

theorem plainAugment_eq {i : AugmentId} (hi : d.HasItem (.site (.augment i))) :
    d.plainAugment i = do
      let r := d.augment i
      let origin ← r.origin.mapM d.plainAugment
      let children ← r.children.mapM d.plainNode
      let uses ← r.uses.mapM d.plainUses
      return { facts := r.facts, children, uses, origin } := by
  calc d.plainAugment i = d.plainAugmentUpTo (d.size + 1) i :=
        (plainAgrees d _ _).augment i (h.nests hi) ((h.nests hi).mono (Nat.le_succ _))
    _ = _ := by rw [plainAugmentUpTo]; rfl

end Acyclic

/-! ## Checking that references end -/

/-- What `x` refers to, as a list. -/
def references (d : Draft) : Item → List Item
  | .site s =>
    let shared := if d.isShorthand s then [] else
      (match s with
        | .node i => (d.node i).origin.toList.map (.site ∘ .node)
        | _ => []) ++
      (d.groupingsAt s).map (.site ∘ .grouping) ++ (d.usesAt s).map .uses
    let origin := match s with
      | .augment a => (d.augment a).origin.toList.map (.site ∘ .augment)
      | _ => []
    (d.childrenOf s).map (.site ∘ .node) ++ (d.augmentsAt s).map (.site ∘ .augment) ++ origin ++ shared
  | .uses u => (d.usesOf u).augmentations.map (.site ∘ .augment)

theorem mem_references (h : d.Refers y x) : y ∈ d.references x := by
  cases h with
  | child h => simp [references, h]
  | merged h => simp [references, h]
  | origin hi h => simp [references, hi, h]
  | grouping hs h => simp [references, hs, h]
  | uses hs h => simp [references, hs, h]
  | inner h => simp [references, h]
  | augmentOrigin h => simp [references, h]

/-- Where there is nothing there are no references. -/
theorem references_of_not_hasItem (h : ¬ d.HasItem x) : d.references x = [] := by
  rcases x with (⟨⟨i⟩⟩ | ⟨⟨i⟩⟩ | ⟨⟨i⟩⟩ | ⟨⟨i⟩⟩) | ⟨⟨i⟩⟩
  · simp only [references, childrenOf, augmentsAt, groupingsAt, usesAt, module_of_size_le (Nat.not_lt.1 h)]
    rfl
  · simp only [references, childrenOf, augmentsAt, groupingsAt, usesAt, isShorthand,
      node_of_size_le (Nat.not_lt.1 h)]
    rfl
  · simp only [references, childrenOf, augmentsAt, groupingsAt, usesAt, grouping_of_size_le (Nat.not_lt.1 h)]
    rfl
  · simp only [references, childrenOf, augmentsAt, groupingsAt, usesAt, augment_of_size_le (Nat.not_lt.1 h)]
    rfl
  · simp only [references, usesOf_of_size_le (Nat.not_lt.1 h)]
    rfl

instance : DecidablePred d.HasItem
  | .site (.module i) => inferInstanceAs (Decidable (i.index < _))
  | .site (.node i) => inferInstanceAs (Decidable (i.index < _))
  | .site (.grouping i) => inferInstanceAs (Decidable (i.index < _))
  | .site (.augment i) => inferInstanceAs (Decidable (i.index < _))
  | .uses i => inferInstanceAs (Decidable (i.index < _))

theorem forall_hasItem {P : Item → Prop} :
    (∀ x, d.HasItem x → P x) ↔
      (∀ i < d.nodes.size, P (.site (.node ⟨i⟩))) ∧ (∀ i < d.groupings.size, P (.site (.grouping ⟨i⟩))) ∧
      (∀ i < d.uses.size, P (.uses ⟨i⟩)) ∧ (∀ i < d.augments.size, P (.site (.augment ⟨i⟩))) ∧
      ∀ i < d.modules.size, P (.site (.module ⟨i⟩)) := by
  constructor
  · intro h
    exact ⟨fun i => h (.site (.node ⟨i⟩)), fun i => h (.site (.grouping ⟨i⟩)), fun i => h (.uses ⟨i⟩),
      fun i => h (.site (.augment ⟨i⟩)), fun i => h (.site (.module ⟨i⟩))⟩
  · rintro ⟨hn, hg, hu, ha, hm⟩ x hx
    rcases x with (⟨⟨i⟩⟩ | ⟨⟨i⟩⟩ | ⟨⟨i⟩⟩ | ⟨⟨i⟩⟩) | ⟨⟨i⟩⟩
    · exact hm i hx
    · exact hn i hx
    · exact hg i hx
    · exact ha i hx
    · exact hu i hx

/-- References end if they lead to what has lower rank. -/
theorem Acyclic.of_rank (rank : Item → Nat)
    (h : ∀ x, d.HasItem x → ∀ y ∈ d.references x, d.HasItem y ∧ rank y < rank x) : d.Acyclic := by
  have hrefers : ∀ x y, d.Refers y x → d.HasItem y ∧ rank y < rank x := by
    intro x y hy
    have hmem := mem_references hy
    by_cases hx : d.HasItem x
    · exact h x hx y hmem
    · rw [references_of_not_hasItem hx] at hmem
      cases hmem
  refine ⟨fun x y hy => (hrefers x y hy).1, fun x hx => ?_⟩
  have hlt : ∀ y, TransGen d.Refers y x → rank y < rank x := by
    intro y hy
    induction hy using TransGen.head_induction_on with
    | single hy => exact (hrefers _ _ hy).2
    | head hy _ ih => exact Nat.lt_trans (hrefers _ _ hy).2 ih
  exact Nat.lt_irrefl _ (hlt x hx)

end Draft

end YangSchema
