import Mathlib.Data.List.Forall2
import YangSchema.Draft.Freeze
import YangSchema.Proofs.Draft.References

/-!
# What freezing makes

Taking snapshots once and sharing them makes no difference: the snapshot of a definition is what plain
recursion down the references makes of it (`NodeSnapshot`, `forall₂_moduleSnapshot`), and there is only one
such (`NodeSnapshot.unique`).  Freezing fails only where it is stuck (`endsFrozen_freezeModule`).
-/

namespace YangSchema

namespace Draft

open Edit

variable {d d₁ d₂ : Draft} {i : NodeId} {a : AugmentId}

/-! ## Snapshots by recursion -/

mutual

/-- `n` is the snapshot of the node `i`, taken by plain recursion in at most so many steps down. -/
def NodeShot (d : Draft) : Nat → NodeId → Node → Prop
  | 0, _, _ => False
  | fuel + 1, i, n => ∃ children augmentations,
    List.Forall₂ (d.NodeShot fuel) (d.node i).children children ∧
    List.Forall₂ (d.AugmentShot fuel) (d.node i).augmentations augmentations ∧
    if (d.node i).kind.isShorthandCase then
      ∃ child rest, children = child :: rest ∧
        n = child.synthesize (d.node i).path augmentations (d.node i).facts.unknown
    else ∃ origin groupings uses,
      Option.Rel (d.NodeShot fuel) (d.node i).origin origin ∧
      List.Forall₂ (d.GroupingShot fuel) (d.node i).groupings groupings ∧
      List.Forall₂ (d.UsesShot fuel) (d.node i).uses uses ∧
      n = snapshotNode (d.node i) (d.effectiveConfig i) children augmentations origin groupings uses

def GroupingShot (d : Draft) : Nat → GroupingId → Grouping → Prop
  | 0, _, _ => False
  | fuel + 1, i, g => ∃ children groupings uses,
    List.Forall₂ (d.NodeShot fuel) (d.grouping i).children children ∧
    List.Forall₂ (d.GroupingShot fuel) (d.grouping i).groupings groupings ∧
    List.Forall₂ (d.UsesShot fuel) (d.grouping i).uses uses ∧
    g = { facts := (d.grouping i).facts, children, groupings, uses }

def UsesShot (d : Draft) : Nat → UsesId → Uses → Prop
  | 0, _, _ => False
  | fuel + 1, i, u => ∃ augmentations,
    List.Forall₂ (d.AugmentShot fuel) (d.usesOf i).augmentations augmentations ∧
    u = { facts := (d.usesOf i).facts, augmentations }

def AugmentShot (d : Draft) : Nat → AugmentId → Augmentation → Prop
  | 0, _, _ => False
  | fuel + 1, i, a => ∃ origin children uses,
    Option.Rel (d.AugmentShot fuel) (d.augment i).origin origin ∧
    List.Forall₂ (d.NodeShot fuel) (d.augment i).children children ∧
    List.Forall₂ (d.UsesShot fuel) (d.augment i).uses uses ∧
    a = { facts := (d.augment i).facts, children, uses, origin }

end

/-! ### More steps, and uniqueness -/

theorem optionRel_imp {α β : Type} {R R' : α → β → Prop} (h : ∀ a b, R a b → R' a b) {x : Option α}
    {y : Option β} (hr : Option.Rel R x y) : Option.Rel R' x y := by
  cases hr with
  | none => exact .none
  | some hr => exact .some (h _ _ hr)

theorem optionRel_unique {α β : Type} {R : α → β → Prop} (h : Relator.RightUnique R) {x : Option α}
    {y z : Option β} (hy : Option.Rel R x y) (hz : Option.Rel R x z) : y = z := by
  cases hy with
  | none => cases hz; rfl
  | some hy =>
    cases hz with
    | some hz => rw [h hy hz]

/-- With more steps down the snapshots stay. -/
structure ShotsLe (d : Draft) (m n : Nat) : Prop where
  node : ∀ i v, d.NodeShot m i v → d.NodeShot n i v
  grouping : ∀ i v, d.GroupingShot m i v → d.GroupingShot n i v
  uses : ∀ i v, d.UsesShot m i v → d.UsesShot n i v
  augment : ∀ i v, d.AugmentShot m i v → d.AugmentShot n i v

theorem ShotsLe.succ {m n : Nat} (h : d.ShotsLe m n) : d.ShotsLe (m + 1) (n + 1) where
  node i v := by
    rintro ⟨children, augmentations, hc, ha, hv⟩
    refine ⟨children, augmentations, hc.imp h.node, ha.imp h.augment, ?_⟩
    split at hv
    · next hk => rw [if_pos hk]; exact hv
    · next hk =>
      obtain ⟨origin, groupings, uses, ho, hg, hu, rfl⟩ := hv
      rw [if_neg hk]
      exact ⟨origin, groupings, uses, optionRel_imp h.node ho, hg.imp h.grouping, hu.imp h.uses, rfl⟩
  grouping i v := by
    rintro ⟨children, groupings, uses, hc, hg, hu, rfl⟩
    exact ⟨children, groupings, uses, hc.imp h.node, hg.imp h.grouping, hu.imp h.uses, rfl⟩
  uses i v := by
    rintro ⟨augmentations, ha, rfl⟩
    exact ⟨augmentations, ha.imp h.augment, rfl⟩
  augment i v := by
    rintro ⟨origin, children, uses, ho, hc, hu, rfl⟩
    exact ⟨origin, children, uses, optionRel_imp h.augment ho, hc.imp h.node, hu.imp h.uses, rfl⟩

theorem ShotsLe.of_le {m n : Nat} (h : m ≤ n) : d.ShotsLe m n := by
  induction m generalizing n with
  | zero => exact ⟨fun _ _ h => h.elim, fun _ _ h => h.elim, fun _ _ h => h.elim, fun _ _ h => h.elim⟩
  | succ m ih =>
    obtain ⟨n, rfl⟩ : ∃ n', n = n' + 1 := ⟨n - 1, by omega⟩
    exact (ih (Nat.le_of_succ_le_succ h)).succ

/-- No definition has two snapshots. -/
structure ShotsUnique (d : Draft) (n : Nat) : Prop where
  node : Relator.RightUnique (d.NodeShot n)
  grouping : Relator.RightUnique (d.GroupingShot n)
  uses : Relator.RightUnique (d.UsesShot n)
  augment : Relator.RightUnique (d.AugmentShot n)

theorem shotsUnique (d : Draft) (n : Nat) : d.ShotsUnique n := by
  induction n with
  | zero =>
    exact ⟨fun _ _ _ h => h.elim, fun _ _ _ h => h.elim, fun _ _ _ h => h.elim,
      fun _ _ _ h => h.elim⟩
  | succ n ih =>
    constructor
    · rintro i v w ⟨children, augmentations, hc, ha, hv⟩ ⟨children', augmentations', hc', ha', hw⟩
      obtain rfl := ih.node.forall₂ hc hc'
      obtain rfl := ih.augment.forall₂ ha ha'
      split at hv
      · next hk =>
        rw [if_pos hk] at hw
        obtain ⟨child, rest, rfl, rfl⟩ := hv
        obtain ⟨child', rest', hcons, rfl⟩ := hw
        rw [(List.cons.inj hcons).1]
      · next hk =>
        rw [if_neg hk] at hw
        obtain ⟨origin, groupings, uses, ho, hg, hu, rfl⟩ := hv
        obtain ⟨origin', groupings', uses', ho', hg', hu', rfl⟩ := hw
        rw [optionRel_unique ih.node ho ho', ih.grouping.forall₂ hg hg', ih.uses.forall₂ hu hu']
    · rintro i v w ⟨children, groupings, uses, hc, hg, hu, rfl⟩
        ⟨children', groupings', uses', hc', hg', hu', rfl⟩
      rw [ih.node.forall₂ hc hc', ih.grouping.forall₂ hg hg', ih.uses.forall₂ hu hu']
    · rintro i v w ⟨augmentations, ha, rfl⟩ ⟨augmentations', ha', rfl⟩
      rw [ih.augment.forall₂ ha ha']
    · rintro i v w ⟨origin, children, uses, ho, hc, hu, rfl⟩
        ⟨origin', children', uses', ho', hc', hu', rfl⟩
      rw [optionRel_unique ih.augment ho ho', ih.node.forall₂ hc hc', ih.uses.forall₂ hu hu']

/-! ## Snapshots without a bound -/

def NodeSnapshot (d : Draft) (i : NodeId) (n : Node) : Prop := ∃ fuel, d.NodeShot fuel i n

def GroupingSnapshot (d : Draft) (i : GroupingId) (g : Grouping) : Prop :=
  ∃ fuel, d.GroupingShot fuel i g

def UsesSnapshot (d : Draft) (i : UsesId) (u : Uses) : Prop := ∃ fuel, d.UsesShot fuel i u

def AugmentSnapshot (d : Draft) (i : AugmentId) (a : Augmentation) : Prop :=
  ∃ fuel, d.AugmentShot fuel i a

/-- `m` is the snapshot of the module `i`. -/
def ModuleSnapshot (d : Draft) (i : ModuleId) (m : Module) : Prop :=
  ∃ nodes groupings augmentations uses,
    List.Forall₂ d.NodeSnapshot (d.module i).children nodes ∧
    List.Forall₂ d.GroupingSnapshot (d.module i).groupings groupings ∧
    List.Forall₂ d.AugmentSnapshot (d.module i).augmentations augmentations ∧
    List.Forall₂ d.UsesSnapshot (d.module i).uses uses ∧
    m = snapshotModule (d.module i) nodes groupings augmentations uses

theorem rightUnique_of_mono {α β : Type} {R : Nat → α → β → Prop}
    (hmono : ∀ m n, m ≤ n → ∀ a b, R m a b → R n a b) (h : ∀ n, Relator.RightUnique (R n)) :
    Relator.RightUnique fun a b => ∃ n, R n a b := by
  rintro a b b' ⟨m, hm⟩ ⟨n, hn⟩
  exact h (max m n) (hmono m _ (Nat.le_max_left ..) _ _ hm) (hmono n _ (Nat.le_max_right ..) _ _ hn)

theorem NodeSnapshot.unique : Relator.RightUnique d.NodeSnapshot :=
  rightUnique_of_mono (fun _ _ h => (ShotsLe.of_le h).node) fun n => (d.shotsUnique n).node

theorem AugmentSnapshot.unique : Relator.RightUnique d.AugmentSnapshot :=
  rightUnique_of_mono (fun _ _ h => (ShotsLe.of_le h).augment) fun n => (d.shotsUnique n).augment

theorem GroupingSnapshot.unique : Relator.RightUnique d.GroupingSnapshot :=
  rightUnique_of_mono (fun _ _ h => (ShotsLe.of_le h).grouping) fun n => (d.shotsUnique n).grouping

theorem UsesSnapshot.unique : Relator.RightUnique d.UsesSnapshot :=
  rightUnique_of_mono (fun _ _ h => (ShotsLe.of_le h).uses) fun n => (d.shotsUnique n).uses

theorem ModuleSnapshot.unique : Relator.RightUnique d.ModuleSnapshot := by
  rintro i m m' ⟨ns, gs, as, us, hn, hg, ha, hu, rfl⟩ ⟨ns', gs', as', us', hn', hg', ha', hu', rfl⟩
  rw [NodeSnapshot.unique.forall₂ hn hn', GroupingSnapshot.unique.forall₂ hg hg',
    AugmentSnapshot.unique.forall₂ ha ha', UsesSnapshot.unique.forall₂ hu hu']

namespace NodeSnapshot

/-- A node that is no shorthand case says what it says, and holds the snapshots of its children. -/
theorem of_not_shorthand {n : Node} (h : d.NodeSnapshot i n)
    (hk : (d.node i).kind.isShorthandCase = false) :
    n.facts = (d.node i).facts ∧ List.Forall₂ d.NodeSnapshot (d.node i).children n.children ∧
      Option.Rel d.NodeSnapshot (d.node i).origin n.origin := by
  obtain ⟨_ | f, hf⟩ := h
  · exact hf.elim
  · obtain ⟨children, augmentations, hc, -, hn⟩ := hf
    rw [if_neg (by simp [hk])] at hn
    obtain ⟨origin, groupings, uses, ho, -, -, rfl⟩ := hn
    exact ⟨rfl, hc.imp fun _ _ h => ⟨f, h⟩, optionRel_imp (fun _ _ h => ⟨f, h⟩) ho⟩

/-- Of the children of a shorthand case only the first counts. -/
theorem of_shorthand {n : Node} (h : d.NodeSnapshot i n)
    (hk : (d.node i).kind.isShorthandCase) :
    ∃ c rest child augmentations, (d.node i).children = c :: rest ∧ d.NodeSnapshot c child ∧
      n = child.synthesize (d.node i).path augmentations (d.node i).facts.unknown := by
  obtain ⟨_ | f, hf⟩ := h
  · exact hf.elim
  · obtain ⟨children, augmentations, hc, -, hn⟩ := hf
    rw [if_pos hk] at hn
    obtain ⟨child, rest, rfl, rfl⟩ := hn
    generalize hl : (d.node i).children = l at hc
    cases hc with
    | cons hc _ => exact ⟨_, _, child, augmentations, rfl, ⟨f, hc⟩, rfl⟩

end NodeSnapshot

/-- An augmentation says what it says, and holds the snapshots of its nodes. -/
theorem AugmentSnapshot.facts_children {v : Augmentation} (h : d.AugmentSnapshot a v) :
    v.facts = (d.augment a).facts ∧ List.Forall₂ d.NodeSnapshot (d.augment a).children v.children := by
  obtain ⟨_ | f, hf⟩ := h
  · exact hf.elim
  · obtain ⟨origin, children, uses, -, hc, -, rfl⟩ := hf
    exact ⟨rfl, hc.imp fun _ _ h => ⟨f, h⟩⟩

/-! ## While snapshots are taken -/

/-- The effective `config` depends on the nodes alone. -/
theorem effectiveConfig_congr {d₀ : Draft} (hnode : ∀ i, d.node i = d₀.node i)
    (hsize : d.nodes.size = d₀.nodes.size) (i : NodeId) :
    d.effectiveConfig i = d₀.effectiveConfig i := by
  have hnode : d.node = d₀.node := funext hnode
  have hup : ∀ fuel i, d.lineageUpTo fuel i = d₀.lineageUpTo fuel i := by
    intro fuel
    induction fuel with
    | zero => exact fun _ => rfl
    | succ fuel ih =>
      intro i
      unfold lineageUpTo
      rw [hnode]
      split
      · rw [ih]
      · rfl
  unfold effectiveConfig lineage
  rw [hup, hsize, hnode]

/-- Of the draft `d₀` only snapshots were taken, and each is the one that recursion makes. -/
structure Freezes (d₀ d : Draft) : Prop where
  node : ∀ i, d.node i = d₀.node i
  grouping : ∀ i, d.grouping i = d₀.grouping i
  uses : ∀ i, d.usesOf i = d₀.usesOf i
  augment : ∀ i, d.augment i = d₀.augment i
  module : ∀ i, d.module i = d₀.module i
  nodes_size : d.nodes.size = d₀.nodes.size
  size : d.size = d₀.size
  node_snapshot : ∀ i v, d.nodes.snapshot? i = some v → d₀.NodeSnapshot ⟨i⟩ v
  grouping_snapshot : ∀ i v, d.groupings.snapshot? i = some v → d₀.GroupingSnapshot ⟨i⟩ v
  uses_snapshot : ∀ i v, d.uses.snapshot? i = some v → d₀.UsesSnapshot ⟨i⟩ v
  augment_snapshot : ∀ i v, d.augments.snapshot? i = some v → d₀.AugmentSnapshot ⟨i⟩ v
  module_snapshot : ∀ i v, d.modules.snapshot? i = some v → d₀.ModuleSnapshot ⟨i⟩ v

/-- A table with one snapshot more. -/
theorem of_snapshot?_freeze {ρ σ : Type} {s : Shelf ρ σ} {P : Nat → σ → Prop} {i : Nat} {v : σ}
    (h : ∀ j w, s.snapshot? j = some w → P j w) (hv : P i v) (j : Nat) (w : σ)
    (hw : (s.freeze i v).snapshot? j = some w) : P j w := by
  rw [Shelf.snapshot?_freeze] at hw
  split at hw
  · next hij =>
    cases hw
    rw [← hij.1]
    exact hv
  · exact h j w hw

namespace Freezes

variable {d₀ : Draft}

theorem refl (h : d₀.Unfrozen) : Freezes d₀ d₀ := by
  have none {ρ σ : Type} {s : Shelf ρ σ} {P : Nat → σ → Prop} (hs : ∀ i, s.isFrozen i = false)
      (i : Nat) (v : σ) (hv : s.snapshot? i = some v) : P i v := by
    have := hs i
    rw [Shelf.isFrozen, hv] at this
    cases this
  exact ⟨fun _ => rfl, fun _ => rfl, fun _ => rfl, fun _ => rfl, fun _ => rfl, rfl, rfl, none h.nodes,
    none h.groupings, none h.uses, none h.augments, none h.modules⟩

variable (h : Freezes d₀ d)
include h

theorem effectiveConfig (i : NodeId) : d.effectiveConfig i = d₀.effectiveConfig i :=
  effectiveConfig_congr h.node h.nodes_size i

theorem freeze_node {n : Node} (hn : d₀.NodeSnapshot i n) :
    Freezes d₀ { d with nodes := d.nodes.freeze i.index n } :=
  { h with
    node := fun j => (Shelf.read_freeze ..).trans (h.node j)
    nodes_size := (Shelf.size_freeze ..).trans h.nodes_size
    size := by simpa only [Draft.size, Shelf.size_freeze] using h.size
    node_snapshot := of_snapshot?_freeze h.node_snapshot hn }

theorem freeze_grouping {i : GroupingId} {g : Grouping} (hg : d₀.GroupingSnapshot i g) :
    Freezes d₀ { d with groupings := d.groupings.freeze i.index g } :=
  { h with
    grouping := fun j => (Shelf.read_freeze ..).trans (h.grouping j)
    size := by simpa only [Draft.size, Shelf.size_freeze] using h.size
    grouping_snapshot := of_snapshot?_freeze h.grouping_snapshot hg }

theorem freeze_uses {i : UsesId} {u : Uses} (hu : d₀.UsesSnapshot i u) :
    Freezes d₀ { d with uses := d.uses.freeze i.index u } :=
  { h with
    uses := fun j => (Shelf.read_freeze ..).trans (h.uses j)
    size := by simpa only [Draft.size, Shelf.size_freeze] using h.size
    uses_snapshot := of_snapshot?_freeze h.uses_snapshot hu }

theorem freeze_augment {v : Augmentation} (ha : d₀.AugmentSnapshot a v) :
    Freezes d₀ { d with augments := d.augments.freeze a.index v } :=
  { h with
    augment := fun j => (Shelf.read_freeze ..).trans (h.augment j)
    size := by simpa only [Draft.size, Shelf.size_freeze] using h.size
    augment_snapshot := of_snapshot?_freeze h.augment_snapshot ha }

theorem freeze_module {i : ModuleId} {m : Module} (hm : d₀.ModuleSnapshot i m) :
    Freezes d₀ { d with modules := d.modules.freeze i.index m } :=
  { h with
    module := fun j => (Shelf.read_freeze ..).trans (h.module j)
    size := by simpa only [Draft.size, Shelf.size_freeze] using h.size
    module_snapshot := of_snapshot?_freeze h.module_snapshot hm }

end Freezes

/-! ## What the functions answer -/

/-- `e` freezes something and answers its snapshot, or fails for a reason. -/
abbrev EndsFrozen {α : Type} (d₀ : Draft) (e : Edit α) (P : α → Prop) (E : Fault → Prop) : Prop :=
  ∀ d, Freezes d₀ d → Ends e d (fun v d' => Freezes d₀ d' ∧ P v) fun f _ => E f

section

variable {d₀ : Draft} {α β : Type} {E F : Fault → Prop}

theorem EndsFrozen.imp {e : Edit α} {P : α → Prop} (h : EndsFrozen d₀ e P E) (hE : ∀ f, E f → F f) :
    EndsFrozen d₀ e P F := fun d hd => (h d hd).mono (fun _ _ h => h) fun f _ hf => hE f hf

theorem EndsFrozen.mapM {f : α → Edit β} {R : α → β → Prop} {l : List α}
    (hf : ∀ x ∈ l, EndsFrozen d₀ (f x) (R x) E) : EndsFrozen d₀ (l.mapM f) (List.Forall₂ R l) E := by
  intro d h
  refine ends_mapM (I := fun pre vs d => Freezes d₀ d ∧ List.Forall₂ R pre vs) l ⟨h, .nil⟩ ?_
  intro pre x post vs d hl ⟨h, hvs⟩
  refine (hf x (by rw [hl]; simp) d h).mono (fun v d' hv => ⟨hv.1, ?_⟩) fun _ _ h => h
  exact List.rel_append hvs (.cons hv.2 .nil)

theorem EndsFrozen.optionMapM {f : α → Edit β} {R : α → β → Prop} {o : Option α}
    (hf : ∀ x, o = some x → EndsFrozen d₀ (f x) (R x) E) :
    EndsFrozen d₀ (o.mapM f) (Option.Rel R o) E := by
  intro d h
  cases o with
  | none => exact ⟨h, .none⟩
  | some x =>
    rw [Option.mapM_some, ends_map]
    exact (hf x rfl d h).mono (fun v d' hv => ⟨hv.1, .some hv.2⟩) fun _ _ h => h

/-- The number of definitions does not change while snapshots are taken. -/
theorem EndsFrozen.sized {e : Nat → Edit α} {P : α → Prop} (h : EndsFrozen d₀ (e d₀.size) P E) :
    EndsFrozen d₀ (do e (← get).size) P E := by
  intro d hd
  rw [ends_bind, ends_get, hd.size]
  exact h d hd

/-- Parts that have snapshots within some number of steps each have them within one number. -/
theorem exists_forall₂ {R : Nat → α → β → Prop} (hmono : ∀ m n, m ≤ n → ∀ a b, R m a b → R n a b)
    {l : List α} {l' : List β} (h : List.Forall₂ (fun a b => ∃ n, R n a b) l l') :
    ∃ n, List.Forall₂ (R n) l l' := by
  induction h with
  | nil => exact ⟨0, .nil⟩
  | cons hab _ ih =>
    obtain ⟨m, hm⟩ := hab
    obtain ⟨n, hn⟩ := ih
    exact ⟨max m n, .cons (hmono _ _ (Nat.le_max_left ..) _ _ hm)
      (hn.imp (hmono _ _ (Nat.le_max_right ..)))⟩

theorem exists_optionRel {R : Nat → α → β → Prop} {o : Option α} {o' : Option β}
    (h : Option.Rel (fun a b => ∃ n, R n a b) o o') : ∃ n, Option.Rel (R n) o o' := by
  cases h with
  | none => exact ⟨0, .none⟩
  | some hab =>
    obtain ⟨n, hn⟩ := hab
    exact ⟨n, .some hn⟩

end

/-- Each function answers the snapshot of what it freezes, unless it is stuck. -/
structure FreezeSpec (d₀ : Draft) (fuel : Nat) : Prop where
  node : ∀ i, EndsFrozen d₀ (freezeNodeUpTo fuel i) (d₀.NodeSnapshot i) fun f =>
    d₀.Stuck fuel (.site (.node i)) f.cause
  grouping : ∀ i, EndsFrozen d₀ (freezeGroupingUpTo fuel i) (d₀.GroupingSnapshot i) fun f =>
    d₀.Stuck fuel (.site (.grouping i)) f.cause
  uses : ∀ i, EndsFrozen d₀ (freezeUsesUpTo fuel i) (d₀.UsesSnapshot i) fun f =>
    d₀.Stuck fuel (.uses i) f.cause
  augment : ∀ i, EndsFrozen d₀ (freezeAugmentUpTo fuel i) (d₀.AugmentSnapshot i) fun f =>
    d₀.Stuck fuel (.site (.augment i)) f.cause

namespace FreezeSpec

variable {d₀ : Draft} {fuel : Nat} (ih : FreezeSpec d₀ fuel)
include ih

/-! The lists of a definition `x` are frozen one after the other. -/

section Lists

variable {x : Item}

theorem nodes {l : List NodeId} (h : ∀ i ∈ l, d₀.Refers (.site (.node i)) x) :
    EndsFrozen d₀ (l.mapM (freezeNodeUpTo fuel)) (List.Forall₂ d₀.NodeSnapshot l) fun f =>
      d₀.Stuck (fuel + 1) x f.cause :=
  .mapM fun i hi => (ih.node i).imp fun _ hf => .further (h i hi) hf

theorem groupings {l : List GroupingId} (h : ∀ i ∈ l, d₀.Refers (.site (.grouping i)) x) :
    EndsFrozen d₀ (l.mapM (freezeGroupingUpTo fuel)) (List.Forall₂ d₀.GroupingSnapshot l) fun f =>
      d₀.Stuck (fuel + 1) x f.cause :=
  .mapM fun i hi => (ih.grouping i).imp fun _ hf => .further (h i hi) hf

theorem usesOf {l : List UsesId} (h : ∀ i ∈ l, d₀.Refers (.uses i) x) :
    EndsFrozen d₀ (l.mapM (freezeUsesUpTo fuel)) (List.Forall₂ d₀.UsesSnapshot l) fun f =>
      d₀.Stuck (fuel + 1) x f.cause :=
  .mapM fun i hi => (ih.uses i).imp fun _ hf => .further (h i hi) hf

theorem augments {l : List AugmentId} (h : ∀ i ∈ l, d₀.Refers (.site (.augment i)) x) :
    EndsFrozen d₀ (l.mapM (freezeAugmentUpTo fuel)) (List.Forall₂ d₀.AugmentSnapshot l) fun f =>
      d₀.Stuck (fuel + 1) x f.cause :=
  .mapM fun i hi => (ih.augment i).imp fun _ hf => .further (h i hi) hf

theorem origin {o : Option NodeId} (h : ∀ i, o = some i → d₀.Refers (.site (.node i)) x) :
    EndsFrozen d₀ (o.mapM (freezeNodeUpTo fuel)) (Option.Rel d₀.NodeSnapshot o) fun f =>
      d₀.Stuck (fuel + 1) x f.cause :=
  .optionMapM fun i hi => (ih.node i).imp fun _ hf => .further (h i hi) hf

theorem augmentOrigin {o : Option AugmentId}
    (h : ∀ i, o = some i → d₀.Refers (.site (.augment i)) x) :
    EndsFrozen d₀ (o.mapM (freezeAugmentUpTo fuel)) (Option.Rel d₀.AugmentSnapshot o) fun f =>
      d₀.Stuck (fuel + 1) x f.cause :=
  .optionMapM fun i hi => (ih.augment i).imp fun _ hf => .further (h i hi) hf

end Lists

theorem succ_uses (i : UsesId) :
    EndsFrozen d₀ (freezeUsesUpTo (fuel + 1) i) (d₀.UsesSnapshot i) fun f =>
      d₀.Stuck (fuel + 1) (.uses i) f.cause := by
  intro d h
  rw [freezeUsesUpTo, ends_bind, ends_get]
  split
  · next v hv =>
    rw [ends_pure]
    exact ⟨h, h.uses_snapshot _ _ hv⟩
  · rw [h.uses, ends_bind]
    refine (ih.augments (fun a ha => .inner ha) d h).mono ?_ fun _ _ h => h
    rintro augmentations d₁ ⟨h₁, ha⟩
    obtain ⟨n, ha⟩ := exists_forall₂ (fun m n hmn => (ShotsLe.of_le hmn).augment) ha
    have hu : d₀.UsesSnapshot i _ := ⟨n + 1, augmentations, ha, rfl⟩
    exact ⟨h₁.freeze_uses hu, hu⟩

theorem succ_grouping (i : GroupingId) :
    EndsFrozen d₀ (freezeGroupingUpTo (fuel + 1) i) (d₀.GroupingSnapshot i) fun f =>
      d₀.Stuck (fuel + 1) (.site (.grouping i)) f.cause := by
  intro d h
  rw [freezeGroupingUpTo, ends_bind, ends_get]
  split
  · next v hv =>
    rw [ends_pure]
    exact ⟨h, h.grouping_snapshot _ _ hv⟩
  · rw [h.grouping, ends_bind]
    refine (ih.nodes (fun c hc => .child (s := .grouping i) hc) d h).mono ?_ fun _ _ h => h
    rintro children d₁ ⟨h₁, hc⟩
    rw [ends_bind]
    refine (ih.groupings (fun g hg => .grouping (s := .grouping i) rfl hg) d₁ h₁).mono ?_
      fun _ _ h => h
    rintro groupings d₂ ⟨h₂, hg⟩
    rw [ends_bind]
    refine (ih.usesOf (fun u hu => .uses (s := .grouping i) rfl hu) d₂ h₂).mono ?_ fun _ _ h => h
    rintro uses d₃ ⟨h₃, hu⟩
    obtain ⟨n₁, hc⟩ := exists_forall₂ (fun m n hmn => (ShotsLe.of_le hmn).node) hc
    obtain ⟨n₂, hg⟩ := exists_forall₂ (fun m n hmn => (ShotsLe.of_le hmn).grouping) hg
    obtain ⟨n₃, hu⟩ := exists_forall₂ (fun m n hmn => (ShotsLe.of_le hmn).uses) hu
    have hs : d₀.GroupingSnapshot i _ := ⟨n₁ + n₂ + n₃ + 1, children, groupings, uses,
      hc.imp (ShotsLe.of_le (by omega)).node, hg.imp (ShotsLe.of_le (by omega)).grouping,
      hu.imp (ShotsLe.of_le (by omega)).uses, rfl⟩
    exact ⟨h₃.freeze_grouping hs, hs⟩

theorem succ_augment (i : AugmentId) :
    EndsFrozen d₀ (freezeAugmentUpTo (fuel + 1) i) (d₀.AugmentSnapshot i) fun f =>
      d₀.Stuck (fuel + 1) (.site (.augment i)) f.cause := by
  intro d h
  rw [freezeAugmentUpTo, ends_bind, ends_get]
  split
  · next v hv =>
    rw [ends_pure]
    exact ⟨h, h.augment_snapshot _ _ hv⟩
  · rw [h.augment, ends_bind]
    refine (ih.augmentOrigin (fun o ho => .augmentOrigin ho) d h).mono ?_ fun _ _ h => h
    rintro origin d₁ ⟨h₁, ho⟩
    rw [ends_bind]
    refine (ih.nodes (fun c hc => .child (s := .augment i) hc) d₁ h₁).mono ?_ fun _ _ h => h
    rintro children d₂ ⟨h₂, hc⟩
    rw [ends_bind]
    refine (ih.usesOf (fun u hu => .uses (s := .augment i) rfl hu) d₂ h₂).mono ?_ fun _ _ h => h
    rintro uses d₃ ⟨h₃, hu⟩
    obtain ⟨n₁, ho⟩ := exists_optionRel ho
    obtain ⟨n₂, hc⟩ := exists_forall₂ (fun m n hmn => (ShotsLe.of_le hmn).node) hc
    obtain ⟨n₃, hu⟩ := exists_forall₂ (fun m n hmn => (ShotsLe.of_le hmn).uses) hu
    have hs : d₀.AugmentSnapshot i _ := ⟨n₁ + n₂ + n₃ + 1, origin, children, uses,
      optionRel_imp (ShotsLe.of_le (by omega)).augment ho, hc.imp (ShotsLe.of_le (by omega)).node,
      hu.imp (ShotsLe.of_le (by omega)).uses, rfl⟩
    exact ⟨h₃.freeze_augment hs, hs⟩

theorem succ_node (i : NodeId) :
    EndsFrozen d₀ (freezeNodeUpTo (fuel + 1) i) (d₀.NodeSnapshot i) fun f =>
      d₀.Stuck (fuel + 1) (.site (.node i)) f.cause := by
  intro d h
  rw [freezeNodeUpTo, ends_bind, ends_get]
  split
  · next v hv =>
    rw [ends_pure]
    exact ⟨h, h.node_snapshot _ _ hv⟩
  · rw [h.node, h.effectiveConfig, ends_bind]
    refine (ih.nodes (fun c hc => .child (s := .node i) hc) d h).mono ?_ fun _ _ h => h
    rintro children d₁ ⟨h₁, hc⟩
    rw [ends_bind]
    refine (ih.augments (fun a ha => .merged (s := .node i) ha) d₁ h₁).mono ?_ fun _ _ h => h
    rintro augmentations d₂ ⟨h₂, ha⟩
    obtain ⟨n₁, hc⟩ := exists_forall₂ (fun m n hmn => (ShotsLe.of_le hmn).node) hc
    obtain ⟨n₂, ha⟩ := exists_forall₂ (fun m n hmn => (ShotsLe.of_le hmn).augment) ha
    split
    · next hk =>
      cases children with
      | nil =>
        rw [ends_bind, ends_throw]
        exact .empty hk (List.forall₂_nil_right_iff.1 hc)
      | cons child rest =>
        have hs : d₀.NodeSnapshot i _ := ⟨n₁ + n₂ + 1, child :: rest, augmentations,
          hc.imp (ShotsLe.of_le (by omega)).node, ha.imp (ShotsLe.of_le (by omega)).augment,
          (if_pos hk).mpr ⟨child, rest, rfl, rfl⟩⟩
        exact ⟨h₂.freeze_node hs, hs⟩
    · next hk =>
      have hi : d₀.isShorthand (.node i) = false := Bool.eq_false_iff.2 hk
      rw [ends_bind]
      refine (ih.origin (fun o ho => .origin hi ho) d₂ h₂).mono ?_ fun _ _ h => h
      rintro origin d₃ ⟨h₃, ho⟩
      rw [ends_bind]
      refine (ih.groupings (fun g hg => .grouping (s := .node i) hi hg) d₃ h₃).mono ?_
        fun _ _ h => h
      rintro groupings d₄ ⟨h₄, hg⟩
      rw [ends_bind]
      refine (ih.usesOf (fun u hu => .uses (s := .node i) hi hu) d₄ h₄).mono ?_ fun _ _ h => h
      rintro uses d₅ ⟨h₅, hu⟩
      obtain ⟨n₃, ho⟩ := exists_optionRel ho
      obtain ⟨n₄, hg⟩ := exists_forall₂ (fun m n hmn => (ShotsLe.of_le hmn).grouping) hg
      obtain ⟨n₅, hu⟩ := exists_forall₂ (fun m n hmn => (ShotsLe.of_le hmn).uses) hu
      have hs : d₀.NodeSnapshot i _ := ⟨n₁ + n₂ + n₃ + n₄ + n₅ + 1, children, augmentations,
        hc.imp (ShotsLe.of_le (by omega)).node, ha.imp (ShotsLe.of_le (by omega)).augment,
        (if_neg hk).mpr ⟨origin, groupings, uses, optionRel_imp (ShotsLe.of_le (by omega)).node ho,
          hg.imp (ShotsLe.of_le (by omega)).grouping, hu.imp (ShotsLe.of_le (by omega)).uses, rfl⟩⟩
      exact ⟨h₅.freeze_node hs, hs⟩

end FreezeSpec

theorem freezeSpec (d₀ : Draft) (fuel : Nat) : FreezeSpec d₀ fuel := by
  induction fuel with
  | zero => exact ⟨fun _ _ _ => .deep, fun _ _ _ => .deep, fun _ _ _ => .deep, fun _ _ _ => .deep⟩
  | succ fuel ih => exact ⟨ih.succ_node, ih.succ_grouping, ih.succ_uses, ih.succ_augment⟩

/-- Freezing a module answers its snapshot, unless something that it refers to is stuck. -/
theorem endsFrozen_freezeModule (d₀ : Draft) (i : ModuleId) :
    EndsFrozen d₀ (freezeModule i) (d₀.ModuleSnapshot i) fun f =>
      d₀.Stuck (d₀.size + 1) (.site (.module i)) f.cause := by
  have spec := freezeSpec d₀ d₀.size
  have nodes : EndsFrozen d₀ ((d₀.module i).children.mapM freezeNode)
      (List.Forall₂ d₀.NodeSnapshot _) fun f => d₀.Stuck (d₀.size + 1) (.site (.module i)) f.cause :=
    .mapM fun c hc =>
      .sized (e := (freezeNodeUpTo · c)) ((spec.node c).imp fun _ hf => .further (.child hc) hf)
  have groupings : EndsFrozen d₀ ((d₀.module i).groupings.mapM freezeGrouping)
      (List.Forall₂ d₀.GroupingSnapshot _) fun f =>
        d₀.Stuck (d₀.size + 1) (.site (.module i)) f.cause :=
    .mapM fun g hg =>
      .sized (e := (freezeGroupingUpTo · g))
        ((spec.grouping g).imp fun _ hf => .further (.grouping rfl hg) hf)
  have augments : EndsFrozen d₀ ((d₀.module i).augmentations.mapM freezeAugment)
      (List.Forall₂ d₀.AugmentSnapshot _) fun f =>
        d₀.Stuck (d₀.size + 1) (.site (.module i)) f.cause :=
    .mapM fun a ha =>
      .sized (e := (freezeAugmentUpTo · a)) ((spec.augment a).imp fun _ hf => .further (.merged ha) hf)
  have usesOf : EndsFrozen d₀ ((d₀.module i).uses.mapM freezeUses)
      (List.Forall₂ d₀.UsesSnapshot _) fun f => d₀.Stuck (d₀.size + 1) (.site (.module i)) f.cause :=
    .mapM fun u hu =>
      .sized (e := (freezeUsesUpTo · u)) ((spec.uses u).imp fun _ hf => .further (.uses rfl hu) hf)
  intro d h
  rw [freezeModule, ends_bind, ends_get]
  split
  · next v hv =>
    rw [ends_pure]
    exact ⟨h, h.module_snapshot _ _ hv⟩
  · rw [h.module, ends_bind]
    refine (nodes d h).mono ?_ fun _ _ h => h
    rintro nodes d₁ ⟨h₁, hn⟩
    rw [ends_bind]
    refine (groupings d₁ h₁).mono ?_ fun _ _ h => h
    rintro groupings d₂ ⟨h₂, hg⟩
    rw [ends_bind]
    refine (augments d₂ h₂).mono ?_ fun _ _ h => h
    rintro augmentations d₃ ⟨h₃, ha⟩
    rw [ends_bind]
    refine (usesOf d₃ h₃).mono ?_ fun _ _ h => h
    rintro usesList d₄ ⟨h₄, hu⟩
    have hs : d₀.ModuleSnapshot i _ := ⟨nodes, groupings, augmentations, usesList, hn, hg, ha, hu, rfl⟩
    exact ⟨h₄.freeze_module hs, hs⟩

/-- Freezing modules answers their snapshots. -/
theorem forall₂_moduleSnapshot (h : d.Unfrozen) {is : List ModuleId} {ms : List Module}
    (hms : ((is.mapM freezeModule).perform d).1 = .ok ms) : List.Forall₂ d.ModuleSnapshot is ms := by
  have hend := EndsFrozen.mapM (E := fun _ => True) (l := is)
    (fun i _ => (endsFrozen_freezeModule d i).imp fun _ _ => trivial) d (.refl h)
  exact (hend.of_ok (Prod.ext hms rfl)).2

/-- If freezing modules fails then one of them is stuck. -/
theorem exists_stuck (h : d.Unfrozen) {is : List ModuleId} {f : Fault}
    (hf : ((is.mapM freezeModule).perform d).1 = .error f) :
    ∃ i ∈ is, d.Stuck (d.size + 1) (.site (.module i)) f.cause := by
  have hend := EndsFrozen.mapM (E := fun f => ∃ i ∈ is, d.Stuck (d.size + 1) (.site (.module i)) f.cause)
    (l := is) (fun i hi => (endsFrozen_freezeModule d i).imp fun _ hf => ⟨i, hi, hf⟩) d (.refl h)
  exact hend.of_error (Prod.ext hf rfl)

end Draft

end YangSchema
