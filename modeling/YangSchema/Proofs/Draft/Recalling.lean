import YangSchema.Proofs.Draft.PlainFreezing

/-!
# Snapshots on the shelves

Whatever is frozen goes the same way: if the shelf has a snapshot that is the answer, else one is made
and put on the shelf (`Draft.recallOr`).  So the functions do two things: what is made is what plain
freezing makes (`Answers`), and what is on a shelf stays there (`Lasts`).
-/

namespace YangSchema

namespace Draft

open Edit

variable {d₀ d d₁ d₂ : Draft} {x : Item} {α β σ : Type}

/-! ## Snapshots of every kind -/

/-- A snapshot of a definition. -/
inductive Snapshot where
  | node (v : Node)
  | grouping (v : Grouping)
  | uses (v : Uses)
  | augment (v : Augmentation)
  | module (v : Module)

/-- The definition with the given number among those of the kind of a snapshot. -/
def Snapshot.item : Snapshot → Nat → Item
  | .node _, i => .site (.node ⟨i⟩)
  | .grouping _, i => .site (.grouping ⟨i⟩)
  | .uses _, i => .uses ⟨i⟩
  | .augment _, i => .site (.augment ⟨i⟩)
  | .module _, i => .site (.module ⟨i⟩)

/-- Freezes a definition. -/
def freeze : Item → Edit Snapshot
  | .site (.node i) => .node <$> freezeNode i
  | .site (.grouping i) => .grouping <$> freezeGrouping i
  | .uses i => .uses <$> freezeUses i
  | .site (.augment i) => .augment <$> freezeAugment i
  | .site (.module i) => .module <$> freezeModule i

/-- Freezes a definition without snapshots. -/
def plain (d : Draft) : Item → Except Fault Snapshot
  | .site (.node i) => .node <$> d.plainNode i
  | .site (.grouping i) => .grouping <$> d.plainGrouping i
  | .uses i => .uses <$> d.plainUses i
  | .site (.augment i) => .augment <$> d.plainAugment i
  | .site (.module i) => .module <$> d.plainModule i

/-- The snapshot that was taken of a definition. -/
def taken? (d : Draft) : Item → Option Snapshot
  | .site (.node i) => (d.nodes.snapshot? i.index).map .node
  | .site (.grouping i) => (d.groupings.snapshot? i.index).map .grouping
  | .uses i => (d.uses.snapshot? i.index).map .uses
  | .site (.augment i) => (d.augments.snapshot? i.index).map .augment
  | .site (.module i) => (d.modules.snapshot? i.index).map .module

/-- Puts a snapshot on its shelf. -/
def store (d : Draft) (i : Nat) : Snapshot → Draft
  | .node v => { d with nodes := d.nodes.freeze i v }
  | .grouping v => { d with groupings := d.groupings.freeze i v }
  | .uses v => { d with uses := d.uses.freeze i v }
  | .augment v => { d with augments := d.augments.freeze i v }
  | .module v => { d with modules := d.modules.freeze i v }

/-! ### Storing -/

theorem taken?_store_self {v : Snapshot} {i : Nat} (h : d.HasItem (v.item i)) :
    (d.store i v).taken? (v.item i) = some v := by
  cases v
  all_goals
    simp only [taken?, store, Snapshot.item, Shelf.snapshot?_freeze]
    rw [if_pos ⟨trivial, h⟩]
    rfl

theorem taken?_store_of_ne {v : Snapshot} {i : Nat} (h : x ≠ v.item i) :
    (d.store i v).taken? x = d.taken? x := by
  have hne {j k : Nat} {P : Prop} (hjk : i = j → False) : ¬ (i = j ∧ P) := fun h => hjk h.1
  cases v <;> rcases x with (⟨⟨j⟩⟩ | ⟨⟨j⟩⟩ | ⟨⟨j⟩⟩ | ⟨⟨j⟩⟩) | ⟨⟨j⟩⟩
  all_goals first
    | rfl
    | simp only [taken?, store, Shelf.snapshot?_freeze]
      rw [if_neg fun hij => h (by rw [← hij.1]; rfl)]

theorem hasItem_store {v : Snapshot} {i : Nat} : (d.store i v).HasItem x ↔ d.HasItem x := by
  cases v <;> apply hasItem_iff_of_sizes <;> simp only [store, Shelf.size_freeze]

/-- Snapshots are taken of what is there. -/
theorem hasItem_of_taken? {v : Snapshot} (h : d.taken? x = some v) : d.HasItem x := by
  have hlt {ρ σ : Type} {s : Shelf ρ σ} {i : Nat} {c : σ → Snapshot}
      (h : (s.snapshot? i).map c = some v) : i < s.size := by
    by_contra hle
    rw [Shelf.snapshot?, Array.getElem?_eq_none (Nat.not_lt.1 hle)] at h
    cases h
  rcases x with (i | i | i | i) | i
  all_goals exact hlt h

/-! ## Answers from the shelf -/

/-- Where the snapshot of `x` belongs. -/
structure ShelfPlace (σ : Type) (x : Item) where
  number : Nat
  wrap : σ → Snapshot
  snapshot? : Draft → Option σ
  item : ∀ v, (wrap v).item number = x
  inj : ∀ v w, wrap v = wrap w → v = w
  taken? : ∀ d, d.taken? x = (snapshot? d).map wrap

namespace ShelfPlace

def node (i : NodeId) : ShelfPlace Node (.site (.node i)) where
  number := i.index
  wrap := .node
  snapshot? d := d.nodes.snapshot? i.index
  item _ := rfl
  inj _ _ := Snapshot.node.inj
  taken? _ := rfl

def grouping (i : GroupingId) : ShelfPlace Grouping (.site (.grouping i)) where
  number := i.index
  wrap := .grouping
  snapshot? d := d.groupings.snapshot? i.index
  item _ := rfl
  inj _ _ := Snapshot.grouping.inj
  taken? _ := rfl

def uses (i : UsesId) : ShelfPlace Uses (.uses i) where
  number := i.index
  wrap := .uses
  snapshot? d := d.uses.snapshot? i.index
  item _ := rfl
  inj _ _ := Snapshot.uses.inj
  taken? _ := rfl

def augment (i : AugmentId) : ShelfPlace Augmentation (.site (.augment i)) where
  number := i.index
  wrap := .augment
  snapshot? d := d.augments.snapshot? i.index
  item _ := rfl
  inj _ _ := Snapshot.augment.inj
  taken? _ := rfl

def module (i : ModuleId) : ShelfPlace Module (.site (.module i)) where
  number := i.index
  wrap := .module
  snapshot? d := d.modules.snapshot? i.index
  item _ := rfl
  inj _ _ := Snapshot.module.inj
  taken? _ := rfl

end ShelfPlace

/-- Answers the snapshot in its place; where there is none, makes one and puts it there. -/
def recallOr (p : ShelfPlace σ x) (make : Edit σ) : Edit σ := do
  if let some v := p.snapshot? (← get) then return v
  let v ← make
  modify fun d => d.store p.number (p.wrap v)
  return v

/-- What is made is made of the draft that has no snapshot. -/
theorem recallOr_get (p : ShelfPlace σ x) (make : Draft → Edit σ) :
    recallOr p (get >>= make) = (do
      let d ← get
      if let some v := p.snapshot? d then return v
      let v ← make d
      modify fun d => d.store p.number (p.wrap v)
      return v) := by
  funext d
  change perform _ d = perform _ d
  simp only [perform_bind, perform_get]
  cases p.snapshot? d with
  | some v => rfl
  | none => simp only [perform_bind, perform_get]

/-! ### What is made -/

def makeNode (fuel : Nat) (i : NodeId) : Edit Node := do
  let d ← get
  let r := d.node i
  let children ← r.children.mapM (freezeNodeUpTo fuel)
  let augmentations ← r.augmentations.mapM (freezeAugmentUpTo fuel)
  if r.kind.isShorthandCase then
    match children with
    | child :: _ => pure (child.synthesize r.path augmentations r.facts.unknown)
    | [] => throw (.internal (.emptyShorthand r.path.render))
  else do
    let origin ← r.origin.mapM (freezeNodeUpTo fuel)
    let groupings ← r.groupings.mapM (freezeGroupingUpTo fuel)
    let uses ← r.uses.mapM (freezeUsesUpTo fuel)
    pure (snapshotNode r (d.effectiveConfig i) children augmentations origin groupings uses)

def makeGrouping (fuel : Nat) (i : GroupingId) : Edit Grouping := do
  let r := (← get).grouping i
  let children ← r.children.mapM (freezeNodeUpTo fuel)
  let groupings ← r.groupings.mapM (freezeGroupingUpTo fuel)
  let uses ← r.uses.mapM (freezeUsesUpTo fuel)
  return { facts := r.facts, children, groupings, uses }

def makeUses (fuel : Nat) (i : UsesId) : Edit Uses := do
  let r := (← get).usesOf i
  let augmentations ← r.augmentations.mapM (freezeAugmentUpTo fuel)
  return { facts := r.facts, augmentations }

def makeAugment (fuel : Nat) (i : AugmentId) : Edit Augmentation := do
  let r := (← get).augment i
  let origin ← r.origin.mapM (freezeAugmentUpTo fuel)
  let children ← r.children.mapM (freezeNodeUpTo fuel)
  let uses ← r.uses.mapM (freezeUsesUpTo fuel)
  return { facts := r.facts, children, uses, origin }

def makeModule (i : ModuleId) : Edit Module := do
  let r := (← get).module i
  let nodes ← r.children.mapM freezeNode
  let groupings ← r.groupings.mapM freezeGrouping
  let augmentations ← r.augmentations.mapM freezeAugment
  let uses ← r.uses.mapM freezeUses
  return snapshotModule r nodes groupings augmentations uses

theorem freezeNodeUpTo_succ (fuel : Nat) (i : NodeId) :
    freezeNodeUpTo (fuel + 1) i = recallOr (.node i) (makeNode fuel i) := by
  rw [freezeNodeUpTo, makeNode, recallOr_get]
  refine bind_congr fun d => ?_
  simp only [ShelfPlace.node, bind_assoc]
  cases d.nodes.snapshot? i.index with
  | some v => rfl
  | none =>
    refine bind_congr fun children => bind_congr fun augmentations => ?_
    split
    · cases children <;> rfl
    · simp only [bind_assoc]
      rfl

theorem freezeGroupingUpTo_succ (fuel : Nat) (i : GroupingId) :
    freezeGroupingUpTo (fuel + 1) i = recallOr (.grouping i) (makeGrouping fuel i) := by
  rw [freezeGroupingUpTo, makeGrouping, recallOr_get]
  refine bind_congr fun d => ?_
  simp only [ShelfPlace.grouping, bind_assoc]
  cases d.groupings.snapshot? i.index <;> rfl

theorem freezeUsesUpTo_succ (fuel : Nat) (i : UsesId) :
    freezeUsesUpTo (fuel + 1) i = recallOr (.uses i) (makeUses fuel i) := by
  rw [freezeUsesUpTo, makeUses, recallOr_get]
  refine bind_congr fun d => ?_
  simp only [ShelfPlace.uses, bind_assoc]
  cases d.uses.snapshot? i.index <;> rfl

theorem freezeAugmentUpTo_succ (fuel : Nat) (i : AugmentId) :
    freezeAugmentUpTo (fuel + 1) i = recallOr (.augment i) (makeAugment fuel i) := by
  rw [freezeAugmentUpTo, makeAugment, recallOr_get]
  refine bind_congr fun d => ?_
  simp only [ShelfPlace.augment, bind_assoc]
  cases d.augments.snapshot? i.index <;> rfl

theorem freezeModule_eq (i : ModuleId) : freezeModule i = recallOr (.module i) (makeModule i) := by
  rw [freezeModule, makeModule, recallOr_get]
  refine bind_congr fun d => ?_
  simp only [ShelfPlace.module, bind_assoc]
  cases d.modules.snapshot? i.index <;> rfl

/-! ## Snapshots stay -/

/-- The definitions of `d` are there in `d₁`, and the snapshots of `d` are taken. -/
structure Lasts (d d₁ : Draft) : Prop where
  hasItem : ∀ x, d.HasItem x → d₁.HasItem x
  taken : ∀ x v, d.taken? x = some v → d₁.taken? x = some v

namespace Lasts

theorem refl (d : Draft) : d.Lasts d := ⟨fun _ h => h, fun _ _ h => h⟩

theorem trans (h : d.Lasts d₁) (h' : d₁.Lasts d₂) : d.Lasts d₂ :=
  ⟨fun x hx => h'.hasItem x (h.hasItem x hx), fun x v hv => h'.taken x v (h.taken x v hv)⟩

/-- A snapshot is put where there was none at the start. -/
theorem store (h : d.Lasts d₁) {v : Snapshot} {i : Nat} (hnone : d.taken? (v.item i) = none) :
    d.Lasts (d₁.store i v) where
  hasItem x hx := hasItem_store.2 (h.hasItem x hx)
  taken x w hw := by
    have hx : x ≠ v.item i := by
      rintro rfl
      rw [hnone] at hw
      cases hw
    rw [taken?_store_of_ne hx]
    exact h.taken x w hw

end Lasts

/-- Whatever `e` comes to, the snapshots stay. -/
def Lasting (e : Edit α) : Prop := ∀ d, Ends e d (fun _ d' => d.Lasts d') fun _ d' => d.Lasts d'

namespace Lasting

theorem pure (a : α) : Lasting (Pure.pure a) := fun d => .refl d

theorem throw (f : Fault) : Lasting (MonadExcept.throw f : Edit α) := fun d => .refl d

theorem get : Lasting get := fun d => .refl d

theorem bind {e : Edit β} {k : β → Edit α} (he : Lasting e) (hk : ∀ b, Lasting (k b)) :
    Lasting (e >>= k) := by
  intro d
  rw [ends_bind]
  exact (he d).mono (fun b d₁ h => (hk b d₁).mono (fun _ _ h' => h.trans h') fun _ _ h' => h.trans h')
    fun _ _ h => h

theorem map {e : Edit β} {f : β → α} (he : Lasting e) : Lasting (f <$> e) := by
  rw [map_eq_pure_bind]
  exact he.bind fun b => pure (f b)

theorem mapM {f : α → Edit β} (hf : ∀ x, Lasting (f x)) (l : List α) : Lasting (l.mapM f) := by
  induction l with
  | nil => exact pure []
  | cons x l ih =>
    rw [List.mapM_cons]
    exact (hf x).bind fun v => ih.bind fun vs => pure (v :: vs)

theorem optionMapM {f : α → Edit β} (hf : ∀ x, Lasting (f x)) (o : Option α) : Lasting (o.mapM f) := by
  cases o with
  | none => exact pure none
  | some x => exact (hf x).map

end Lasting

/-- `e` answers what is in the place `p`, and what it answers is there from then on. -/
structure Recalling (p : ShelfPlace σ x) (e : Edit σ) : Prop where
  hit : ∀ d v, p.snapshot? d = some v → e.perform d = (.ok v, d)
  ends : ∀ d, Ends e d (fun v d' => d.Lasts d' ∧ (d.HasItem x → p.snapshot? d' = some v))
    fun _ d' => d.Lasts d'

theorem Recalling.lasting {p : ShelfPlace σ x} {e : Edit σ} (h : Recalling p e) : Lasting e :=
  fun d => (h.ends d).mono (fun _ _ h => h.1) fun _ _ h => h

theorem ShelfPlace.snapshot?_of_taken? (p : ShelfPlace σ x) {v : σ} (h : d.taken? x = some (p.wrap v)) :
    p.snapshot? d = some v := by
  rw [p.taken?, Option.map_eq_some_iff] at h
  obtain ⟨w, hw, heq⟩ := h
  rw [hw, p.inj w v heq]

/-- Recalling overwrites nothing: what is put on the shelf was not there when it was looked for. -/
theorem recalling_recallOr (p : ShelfPlace σ x) {make : Edit σ} (h : Lasting make) :
    Recalling p (recallOr p make) where
  hit d v hv := by
    rw [recallOr, perform_bind, perform_get]
    simp only [hv, perform_pure]
  ends d := by
    rw [recallOr, ends_bind, ends_get]
    split
    · next v hv => exact ⟨.refl d, fun _ => hv⟩
    · next hnone =>
      have hnone : d.taken? x = none := by
        rw [p.taken?, Option.eq_none_iff_forall_ne_some.2 hnone]
        rfl
      rw [ends_bind]
      refine (h d).mono (fun v d₁ h₁ => ⟨h₁.store (by rwa [p.item]), fun hx => ?_⟩) fun _ _ h => h
      refine p.snapshot?_of_taken? ?_
      have hstored : (d₁.store p.number (p.wrap v)).taken? ((p.wrap v).item p.number) = _ :=
        taken?_store_self (by rw [p.item]; exact h₁.hasItem x hx)
      rwa [p.item] at hstored

/-- Freezing in so many steps down leaves all snapshots where they are. -/
structure FreezeLasts (fuel : Nat) : Prop where
  node : ∀ i, Lasting (freezeNodeUpTo fuel i)
  grouping : ∀ i, Lasting (freezeGroupingUpTo fuel i)
  uses : ∀ i, Lasting (freezeUsesUpTo fuel i)
  augment : ∀ i, Lasting (freezeAugmentUpTo fuel i)

namespace FreezeLasts

variable {fuel : Nat} (ih : FreezeLasts fuel)
include ih

theorem makeNode (i : NodeId) : Lasting (makeNode fuel i) := by
  refine .bind .get fun d => ?_
  refine (Lasting.mapM ih.node _).bind fun children => (Lasting.mapM ih.augment _).bind fun _ => ?_
  split
  · cases children with
    | nil => exact .throw _
    | cons child _ => exact .pure _
  · exact (Lasting.optionMapM ih.node _).bind fun _ => (Lasting.mapM ih.grouping _).bind fun _ =>
      (Lasting.mapM ih.uses _).bind fun _ => .pure _

theorem makeGrouping (i : GroupingId) : Lasting (makeGrouping fuel i) :=
  .bind .get fun _ => (Lasting.mapM ih.node _).bind fun _ => (Lasting.mapM ih.grouping _).bind fun _ =>
    (Lasting.mapM ih.uses _).bind fun _ => .pure _

theorem makeUses (i : UsesId) : Lasting (makeUses fuel i) :=
  .bind .get fun _ => (Lasting.mapM ih.augment _).bind fun _ => .pure _

theorem makeAugment (i : AugmentId) : Lasting (makeAugment fuel i) :=
  .bind .get fun _ => (Lasting.optionMapM ih.augment _).bind fun _ =>
    (Lasting.mapM ih.node _).bind fun _ => (Lasting.mapM ih.uses _).bind fun _ => .pure _

end FreezeLasts

theorem freezeLasts (fuel : Nat) : FreezeLasts fuel := by
  induction fuel with
  | zero => exact ⟨fun _ => .throw _, fun _ => .throw _, fun _ => .throw _, fun _ => .throw _⟩
  | succ fuel ih =>
    refine ⟨fun i => ?_, fun i => ?_, fun i => ?_, fun i => ?_⟩
    · rw [freezeNodeUpTo_succ]
      exact (recalling_recallOr _ (ih.makeNode i)).lasting
    · rw [freezeGroupingUpTo_succ]
      exact (recalling_recallOr _ (ih.makeGrouping i)).lasting
    · rw [freezeUsesUpTo_succ]
      exact (recalling_recallOr _ (ih.makeUses i)).lasting
    · rw [freezeAugmentUpTo_succ]
      exact (recalling_recallOr _ (ih.makeAugment i)).lasting

/-- A draft with a snapshot has a definition, so there is at least one step down. -/
theorem Recalling.sized {p : ShelfPlace σ x} {e : Nat → Edit σ} {f : Fault} (hzero : e 0 = throw f)
    (hsucc : ∀ n, Recalling p (e (n + 1))) : Recalling p (do e (← get).size) where
  hit d v hv := by
    have hx : d.HasItem x := hasItem_of_taken? (by rw [p.taken?, hv]; rfl)
    obtain ⟨n, hn⟩ := Nat.exists_eq_add_one_of_ne_zero (Nat.ne_zero_of_lt (itemNumber_lt hx))
    rw [perform_bind, perform_get]
    simp only [hn]
    exact (hsucc n).hit d v hv
  ends d := by
    rw [ends_bind, ends_get]
    cases d.size with
    | zero =>
      rw [hzero]
      exact .refl d
    | succ n => exact (hsucc n).ends d

theorem recalling_freezeNode (i : NodeId) : Recalling (.node i) (freezeNode i) :=
  .sized (e := (freezeNodeUpTo · i)) rfl fun n => by
    rw [freezeNodeUpTo_succ]
    exact recalling_recallOr _ ((freezeLasts n).makeNode i)

theorem recalling_freezeGrouping (i : GroupingId) : Recalling (.grouping i) (freezeGrouping i) :=
  .sized (e := (freezeGroupingUpTo · i)) rfl fun n => by
    rw [freezeGroupingUpTo_succ]
    exact recalling_recallOr _ ((freezeLasts n).makeGrouping i)

theorem recalling_freezeUses (i : UsesId) : Recalling (.uses i) (freezeUses i) :=
  .sized (e := (freezeUsesUpTo · i)) rfl fun n => by
    rw [freezeUsesUpTo_succ]
    exact recalling_recallOr _ ((freezeLasts n).makeUses i)

theorem recalling_freezeAugment (i : AugmentId) : Recalling (.augment i) (freezeAugment i) :=
  .sized (e := (freezeAugmentUpTo · i)) rfl fun n => by
    rw [freezeAugmentUpTo_succ]
    exact recalling_recallOr _ ((freezeLasts n).makeAugment i)

theorem recalling_freezeModule (i : ModuleId) : Recalling (.module i) (freezeModule i) := by
  rw [freezeModule_eq]
  refine recalling_recallOr _ ?_
  exact .bind .get fun _ => (Lasting.mapM (fun i => (recalling_freezeNode i).lasting) _).bind fun _ =>
    (Lasting.mapM (fun i => (recalling_freezeGrouping i).lasting) _).bind fun _ =>
    (Lasting.mapM (fun i => (recalling_freezeAugment i).lasting) _).bind fun _ =>
    (Lasting.mapM (fun i => (recalling_freezeUses i).lasting) _).bind fun _ => .pure _

namespace Recalling

variable {p : ShelfPlace σ x} {e : Edit σ} (h : Recalling p e)
include h

/-- What is answered is taken. -/
theorem ends_wrap (d : Draft) :
    Ends (p.wrap <$> e) d (fun v d' => d.Lasts d' ∧ (d.HasItem x → d'.taken? x = some v))
      fun _ d' => d.Lasts d' := by
  rw [ends_map]
  refine (h.ends d).mono (fun v d' hv => ⟨hv.1, fun hx => ?_⟩) fun _ _ h => h
  rw [p.taken?, hv.2 hx]
  rfl

/-- What is taken is answered. -/
theorem perform_wrap {v : Snapshot} (hv : d.taken? x = some v) :
    (p.wrap <$> e).perform d = (.ok v, d) := by
  rw [p.taken?, Option.map_eq_some_iff] at hv
  obtain ⟨w, hw, rfl⟩ := hv
  rw [map_eq_pure_bind, perform_bind, h.hit d w hw]
  rfl

end Recalling

/-- Freezing keeps all snapshots, and takes the one that it answers. -/
theorem ends_freeze (x : Item) (d : Draft) :
    Ends (freeze x) d (fun v d' => d.Lasts d' ∧ (d.HasItem x → d'.taken? x = some v))
      fun _ d' => d.Lasts d' := by
  rcases x with (i | i | i | i) | i
  · exact (recalling_freezeModule i).ends_wrap d
  · exact (recalling_freezeNode i).ends_wrap d
  · exact (recalling_freezeGrouping i).ends_wrap d
  · exact (recalling_freezeAugment i).ends_wrap d
  · exact (recalling_freezeUses i).ends_wrap d

/-- Freezing again changes nothing. -/
theorem perform_freeze_of_taken {v : Snapshot} (hv : d.taken? x = some v) :
    (freeze x).perform d = (.ok v, d) := by
  rcases x with (i | i | i | i) | i
  · exact (recalling_freezeModule i).perform_wrap hv
  · exact (recalling_freezeNode i).perform_wrap hv
  · exact (recalling_freezeGrouping i).perform_wrap hv
  · exact (recalling_freezeAugment i).perform_wrap hv
  · exact (recalling_freezeUses i).perform_wrap hv

end Draft

end YangSchema
