import Mathlib.Data.Finset.Card
import Mathlib.Logic.Relation
import Mathlib.Order.RelClasses
import YangSchema.Proofs.Draft.Update

/-!
# Sound drafts

In a sound draft a node names the site that it hangs under exactly if that site lists it, references
lead to records that are there, and no definition contains itself (`Draft.Sound`).  So the way up
from a node is unique (`Under.total`), and every way down is shorter than the number of records
(`nests_size`): the functions that go down a draft have fuel enough.
-/

namespace YangSchema

/-! ## Ways down -/

/-- Every way down from `x` along `r` is shorter than `n`. -/
inductive Nests {α : Type} (r : α → α → Prop) : Nat → α → Prop
  | mk {n : Nat} {x : α} (h : ∀ y, r y x → Nests r n y) : Nests r (n + 1) x

namespace Nests

variable {α : Type} {r : α → α → Prop}

theorem down {n : Nat} {x y : α} (h : Nests r (n + 1) x) (hy : r y x) : Nests r n y := by
  cases h with
  | mk h => exact h y hy

theorem mono {n : Nat} {x : α} (h : Nests r n x) : ∀ {m}, n ≤ m → Nests r m x := by
  induction h with
  | @mk n x h ih =>
    intro m hm
    obtain ⟨k, rfl⟩ : ∃ k, m = k + 1 := ⟨m - 1, by omega⟩
    exact .mk fun y hy => ih y hy (by omega)

/-- A way down never comes back to where it was, so it is no longer than there are numbers for the
things on it. -/
theorem of_wellFounded (hr : WellFounded r) {P : α → Prop} (hP : ∀ x y, P x → r y x → P y)
    (code : α → Nat) {n : Nat} (hcode : ∀ x, P x → code x < n)
    (hinj : ∀ x y, P x → P y → code x = code y → x = y) {x : α} (hx : P x) : Nests r n x := by
  have hP' : ∀ x y, P x → Relation.TransGen r y x → P y := by
    intro x y hx h
    induction h using Relation.TransGen.head_induction_on with
    | single h => exact hP _ _ hx h
    | head h _ ih => exact hP _ _ ih h
  suffices H : ∀ x, P x → ∀ S : Finset Nat,
      (∀ y, y = x ∨ Relation.TransGen r y x → code y ∈ S) → Nests r S.card x by
    have h := H x hx (Finset.range n) fun y hy => by
      rcases hy with rfl | hy
      · exact Finset.mem_range.2 (hcode _ hx)
      · exact Finset.mem_range.2 (hcode _ (hP' _ _ hx hy))
    rwa [Finset.card_range] at h
  intro x
  induction x using hr.induction with
  | _ x ih =>
    intro hx S hS
    have hmem : code x ∈ S := hS x (.inl rfl)
    have hcard : (S.erase (code x)).card + 1 = S.card := Finset.card_erase_add_one hmem
    rw [← hcard]
    refine .mk fun y hy => ih y hy (hP x y hx hy) _ fun z hz => ?_
    have hzx : Relation.TransGen r z x := by
      rcases hz with rfl | hz
      · exact .single hy
      · exact hz.tail hy
    refine Finset.mem_erase.2 ⟨fun heq => ?_, hS z (.inr hzx)⟩
    have hz : z = x := hinj z x (hP' _ _ hx hzx) hx heq
    subst hz
    exact hr.transGen.asymmetric z z hzx hzx

end Nests

/-- New things may be put below the old ones: ways down that end among the new ones still end. -/
theorem wellFounded_of_new {α : Type} {r r' : α → α → Prop} (hr : WellFounded r) (New : α → Prop)
    (hnew : ∀ x y, New x → r' y x → New y ∧ r y x) (hold : ∀ x y, r' y x → New y ∨ r y x) :
    WellFounded r' := by
  have h : ∀ x, New x → Acc r' x := by
    intro x
    induction x using hr.induction with
    | _ x ih => exact fun hx => ⟨x, fun y hy => ih y (hnew x y hx hy).2 (hnew x y hx hy).1⟩
  refine ⟨fun x => ?_⟩
  induction x using hr.induction with
  | _ x ih => exact ⟨x, fun y hy => (hold x y hy).elim (h y) (ih y)⟩

namespace Draft

variable {d : Draft}

/-! ## What a definition contains -/

/-- A site or a uses. -/
inductive Item where
  | site (s : Site)
  | uses (u : UsesId)

/-- The nodes and uses at a site, the augmentations in a uses. -/
def contents (d : Draft) : Item → List Item
  | .site s => (d.childrenOf s).map (.site ∘ .node) ++ (d.usesAt s).map .uses
  | .uses u => (d.usesOf u).augmentations.map (.site ∘ .augment)

def Contains (d : Draft) (y x : Item) : Prop := y ∈ d.contents x

def HasItem (d : Draft) : Item → Prop
  | .site s => d.HasSite s
  | .uses u => u.index < d.uses.size

theorem contains_site {s : Site} {y : Item} :
    d.Contains y (.site s) ↔
      (∃ c ∈ d.childrenOf s, y = .site (.node c)) ∨ ∃ u ∈ d.usesAt s, y = .uses u := by
  unfold Contains contents
  rw [List.mem_append, List.mem_map, List.mem_map]
  constructor
  · rintro (⟨c, hc, rfl⟩ | ⟨u, hu, rfl⟩)
    · exact .inl ⟨c, hc, rfl⟩
    · exact .inr ⟨u, hu, rfl⟩
  · rintro (⟨c, hc, rfl⟩ | ⟨u, hu, rfl⟩)
    · exact .inl ⟨c, hc, rfl⟩
    · exact .inr ⟨u, hu, rfl⟩

theorem contains_uses {u : UsesId} {y : Item} :
    d.Contains y (.uses u) ↔ ∃ a ∈ (d.usesOf u).augmentations, y = .site (.augment a) := by
  unfold Contains contents
  rw [List.mem_map]
  constructor
  · rintro ⟨a, ha, rfl⟩
    exact ⟨a, ha, rfl⟩
  · rintro ⟨a, ha, rfl⟩
    exact ⟨a, ha, rfl⟩

/-- Drafts of the same size have the same things. -/
theorem hasItem_iff_of_sizes {d d₁ : Draft} (hnodes : d₁.nodes.size = d.nodes.size)
    (hgroupings : d₁.groupings.size = d.groupings.size) (huses : d₁.uses.size = d.uses.size)
    (haugments : d₁.augments.size = d.augments.size) (hmodules : d₁.modules.size = d.modules.size)
    (x : Item) : d₁.HasItem x ↔ d.HasItem x := by
  rcases x with (i | i | i | i) | u
  · exact iff_of_eq (congrArg (i.index < ·) hmodules)
  · exact iff_of_eq (congrArg (i.index < ·) hnodes)
  · exact iff_of_eq (congrArg (i.index < ·) hgroupings)
  · exact iff_of_eq (congrArg (i.index < ·) haugments)
  · exact iff_of_eq (congrArg (u.index < ·) huses)

theorem hasItem_of_contains {x y : Item} (h : d.Contains y x) : d.HasItem x := by
  cases x with
  | site s =>
    rcases contains_site.1 h with ⟨c, hc, -⟩ | ⟨u, hu, -⟩
    · exact hasSite_of_mem_childrenOf hc
    · exact hasSite_of_mem_usesAt hu
  | uses u =>
    obtain ⟨a, ha, -⟩ := contains_uses.1 h
    refine Nat.lt_of_not_le fun hle => ?_
    rw [usesOf_of_size_le hle] at ha
    cases ha

/-- Numbers for the items of a draft: one shelf after the other. -/
def itemNumber (d : Draft) : Item → Nat
  | .site (.node i) => i.index
  | .site (.grouping i) => d.nodes.size + i.index
  | .uses i => d.nodes.size + d.groupings.size + i.index
  | .site (.augment i) => d.nodes.size + d.groupings.size + d.uses.size + i.index
  | .site (.module i) =>
    d.nodes.size + d.groupings.size + d.uses.size + d.augments.size + i.index

theorem itemNumber_lt {x : Item} (h : d.HasItem x) : d.itemNumber x < d.size := by
  unfold size
  rcases x with (i | i | i | i) | i
  all_goals
    simp only [HasItem, HasSite] at h
    simp only [itemNumber]
    omega

theorem itemNumber_inj {x y : Item} (hx : d.HasItem x) (hy : d.HasItem y)
    (h : d.itemNumber x = d.itemNumber y) : x = y := by
  rcases x with (⟨⟨i⟩⟩ | ⟨⟨i⟩⟩ | ⟨⟨i⟩⟩ | ⟨⟨i⟩⟩) | ⟨⟨i⟩⟩ <;>
    rcases y with (⟨⟨j⟩⟩ | ⟨⟨j⟩⟩ | ⟨⟨j⟩⟩ | ⟨⟨j⟩⟩) | ⟨⟨j⟩⟩
  all_goals
    simp only [HasItem, HasSite] at hx hy
    simp only [itemNumber] at h
    first
      | (exfalso; omega)
      | (obtain rfl : i = j := by omega
         rfl)

/-! ## Drafts with more records -/

/-- All records are there as before, and perhaps more of them; groupings and modules are the
same. -/
structure Extends (d d' : Draft) : Prop where
  nodes_le : d.nodes.size ≤ d'.nodes.size
  uses_le : d.uses.size ≤ d'.uses.size
  augments_le : d.augments.size ≤ d'.augments.size
  groupings_size : d'.groupings.size = d.groupings.size
  modules_size : d'.modules.size = d.modules.size
  node : ∀ i, i.index < d.nodes.size → d'.node i = d.node i
  usesOf : ∀ u, u.index < d.uses.size → d'.usesOf u = d.usesOf u
  augment : ∀ a, a.index < d.augments.size → d'.augment a = d.augment a
  grouping : ∀ g, d'.grouping g = d.grouping g
  module : ∀ m, d'.module m = d.module m

namespace Extends

variable {d' d'' : Draft}

theorem refl (d : Draft) : d.Extends d :=
  ⟨Nat.le_refl _, Nat.le_refl _, Nat.le_refl _, rfl, rfl, fun _ _ => rfl, fun _ _ => rfl,
    fun _ _ => rfl, fun _ => rfl, fun _ => rfl⟩

theorem trans (h : d.Extends d') (h' : d'.Extends d'') : d.Extends d'' where
  nodes_le := Nat.le_trans h.nodes_le h'.nodes_le
  uses_le := Nat.le_trans h.uses_le h'.uses_le
  augments_le := Nat.le_trans h.augments_le h'.augments_le
  groupings_size := h'.groupings_size.trans h.groupings_size
  modules_size := h'.modules_size.trans h.modules_size
  node i hi := (h'.node i (Nat.lt_of_lt_of_le hi h.nodes_le)).trans (h.node i hi)
  usesOf u hu := (h'.usesOf u (Nat.lt_of_lt_of_le hu h.uses_le)).trans (h.usesOf u hu)
  augment a ha := (h'.augment a (Nat.lt_of_lt_of_le ha h.augments_le)).trans (h.augment a ha)
  grouping g := (h'.grouping g).trans (h.grouping g)
  module m := (h'.module m).trans (h.module m)

theorem withNode (d : Draft) (r : NodeDraft) : d.Extends (d.withNode r) where
  nodes_le := Shelf.size_le_size_push _ _
  uses_le := Nat.le_refl _
  augments_le := Nat.le_refl _
  groupings_size := rfl
  modules_size := rfl
  node i hi := by rw [node_withNode, if_neg (Nat.ne_of_lt hi)]
  usesOf _ _ := rfl
  augment _ _ := rfl
  grouping _ := rfl
  module _ := rfl

theorem withUses (d : Draft) (r : UsesDraft) : d.Extends (d.withUses r) where
  nodes_le := Nat.le_refl _
  uses_le := Shelf.size_le_size_push _ _
  augments_le := Nat.le_refl _
  groupings_size := rfl
  modules_size := rfl
  node _ _ := rfl
  usesOf u hu := by rw [usesOf_withUses, if_neg (Nat.ne_of_lt hu)]
  augment _ _ := rfl
  grouping _ := rfl
  module _ := rfl

theorem withAugment (d : Draft) (r : AugmentDraft) : d.Extends (d.withAugment r) where
  nodes_le := Nat.le_refl _
  uses_le := Nat.le_refl _
  augments_le := Shelf.size_le_size_push _ _
  groupings_size := rfl
  modules_size := rfl
  node _ _ := rfl
  usesOf _ _ := rfl
  augment a ha := by rw [augment_withAugment, if_neg (Nat.ne_of_lt ha)]
  grouping _ := rfl
  module _ := rfl

variable (h : d.Extends d')
include h

theorem hasSite {s : Site} (hs : d.HasSite s) : d'.HasSite s := by
  cases s with
  | module i => show _ < _; rw [h.modules_size]; exact hs
  | node i => exact Nat.lt_of_lt_of_le hs h.nodes_le
  | grouping i => show _ < _; rw [h.groupings_size]; exact hs
  | augment i => exact Nat.lt_of_lt_of_le hs h.augments_le

theorem hasItem {x : Item} (hx : d.HasItem x) : d'.HasItem x := by
  cases x with
  | site s => exact h.hasSite hx
  | uses u => exact Nat.lt_of_lt_of_le hx h.uses_le

theorem childrenOf {s : Site} (hs : d.HasSite s) : d'.childrenOf s = d.childrenOf s := by
  cases s with
  | module i => exact congrArg ModuleDraft.children (h.module i)
  | node i => exact congrArg NodeDraft.children (h.node i hs)
  | grouping i => exact congrArg GroupingDraft.children (h.grouping i)
  | augment i => exact congrArg AugmentDraft.children (h.augment i hs)

theorem usesAt {s : Site} (hs : d.HasSite s) : d'.usesAt s = d.usesAt s := by
  cases s with
  | module i => exact congrArg ModuleDraft.uses (h.module i)
  | node i => exact congrArg NodeDraft.uses (h.node i hs)
  | grouping i => exact congrArg GroupingDraft.uses (h.grouping i)
  | augment i => exact congrArg AugmentDraft.uses (h.augment i hs)

theorem pathOf {s : Site} (hs : d.HasSite s) : d'.pathOf s = d.pathOf s := by
  cases s with
  | module i => rfl
  | node i => exact congrArg NodeDraft.path (h.node i hs)
  | grouping i => exact congrArg (fun g => g.facts.path) (h.grouping i)
  | augment i => exact congrArg (fun a => a.facts.target) (h.augment i hs)

theorem contents {x : Item} (hx : d.HasItem x) : d'.contents x = d.contents x := by
  cases x with
  | site s => simp only [Draft.contents, h.childrenOf hx, h.usesAt hx]
  | uses u => simp only [Draft.contents, h.usesOf u hx]

end Extends

/-! ## The way up -/

/-- `x` is the site `s` or hangs somewhere below it. -/
inductive Under (d : Draft) : Site → Site → Prop
  | refl (s : Site) : Under d s s
  | up {i : NodeId} {p s : Site} (hp : (d.node i).parent = some p) (h : Under d p s) :
    Under d (.node i) s

theorem lt_of_parent {c : NodeId} {s : Site} (hc : (d.node c).parent = some s) :
    c.index < d.nodes.size := by
  refine Nat.lt_of_not_le fun hle => ?_
  rw [node_of_size_le hle] at hc
  cases hc

/-- What is under a site is there if the site is. -/
theorem lt_of_under {i : NodeId} {s : Site} (h : d.Under (.node i) s) (hs : ∀ j, s ≠ .node j) :
    i.index < d.nodes.size := by
  generalize hx : Site.node i = x at h
  cases h with
  | refl => exact absurd hx.symm (hs i)
  | up hp _ =>
    cases hx
    exact lt_of_parent hp

theorem hasSite_of_under {x s : Site} (hx : d.Under x s) (hs : d.HasSite s) : d.HasSite x := by
  cases hx with
  | refl => exact hs
  | up hp _ => exact lt_of_parent hp

namespace Under

theorem trans {x y z : Site} (h : d.Under x y) (h' : d.Under y z) : d.Under x z := by
  induction h with
  | refl => exact h'
  | up hp _ ih => exact .up hp (ih h')

/-- Of two sites above the same site one is above the other. -/
theorem total {x y z : Site} (h : d.Under x y) (h' : d.Under x z) : d.Under y z ∨ d.Under z y := by
  induction h with
  | refl => exact .inl h'
  | @up i p s hp h ih =>
    cases h' with
    | refl => exact .inr (.up hp h)
    | up hp' h' =>
      rw [hp] at hp'
      cases hp'
      exact ih h'

/-- Nothing is above a site that is no node. -/
theorem eq_of_root {x s : Site} (h : d.Under x s) (hx : ∀ i, x ≠ .node i) : x = s := by
  cases h with
  | refl => rfl
  | up hp h => exact absurd rfl (hx _)

/-- Two sites that are no nodes and above the same site are the same. -/
theorem root_unique {x y z : Site} (h : d.Under x y) (h' : d.Under x z)
    (hy : ∀ i, y ≠ .node i) (hz : ∀ i, z ≠ .node i) : y = z := by
  rcases h.total h' with h | h
  · exact h.eq_of_root hy
  · exact (h.eq_of_root hz).symm

end Under

/-! ## Sound drafts -/

structure Sound (d : Draft) : Prop where
  unfrozen : d.Unfrozen
  /-- A site lists exactly the nodes that name it as their parent. -/
  parent_iff : ∀ s c, c ∈ d.childrenOf s ↔ (d.node c).parent = some s
  uses_lt : ∀ s, ∀ u ∈ d.usesAt s, u.index < d.uses.size
  augment_lt : ∀ u, ∀ a ∈ (d.usesOf u).augmentations, a.index < d.augments.size
  /-- Nothing contains itself. -/
  wf : WellFounded d.Contains

namespace Sound

variable (h : d.Sound)
include h

theorem parent_eq {s : Site} {c : NodeId} (hc : c ∈ d.childrenOf s) : (d.node c).parent = some s :=
  (h.parent_iff s c).1 hc

theorem child_lt {s : Site} {c : NodeId} (hc : c ∈ d.childrenOf s) : c.index < d.nodes.size :=
  lt_of_parent (h.parent_eq hc)

theorem hasSite_parent {c : NodeId} {s : Site} (hc : (d.node c).parent = some s) : d.HasSite s :=
  hasSite_of_mem_childrenOf ((h.parent_iff s c).2 hc)

theorem hasItem_of_contains {x y : Item} (hy : d.Contains y x) : d.HasItem y := by
  cases x with
  | site s =>
    rcases contains_site.1 hy with ⟨c, hc, rfl⟩ | ⟨u, hu, rfl⟩
    · exact h.child_lt hc
    · exact h.uses_lt s u hu
  | uses u =>
    obtain ⟨a, ha, rfl⟩ := contains_uses.1 hy
    exact h.augment_lt u a ha

/-- Going down, there are fewer steps than records. -/
theorem nests_size {x : Item} (hx : d.HasItem x) : Nests d.Contains d.size x :=
  .of_wellFounded h.wf (fun _ _ _ hy => h.hasItem_of_contains hy) d.itemNumber
    (fun _ => itemNumber_lt) (fun _ _ => itemNumber_inj) hx

/-- Going down from node to node, there are fewer steps than nodes. -/
theorem nests_nodes {i : NodeId} (hi : i.index < d.nodes.size) :
    Nests (fun c i => c ∈ d.childrenOf (.node i)) d.nodes.size i := by
  have hwf : WellFounded fun c i => c ∈ d.childrenOf (.node i) :=
    Subrelation.wf (fun {c i} hc => contains_site.2 (.inl ⟨c, hc, rfl⟩))
      (InvImage.wf (fun i => Item.site (.node i)) h.wf)
  refine .of_wellFounded hwf (P := fun i => i.index < d.nodes.size)
    (fun _ _ _ hc => h.child_lt hc) NodeId.index (fun _ hx => hx) (fun x y _ _ hxy => ?_) hi
  cases x; cases y; cases hxy; rfl

/-- What is above a site is there if the site is. -/
theorem hasSite_above {x s : Site} (hx : d.Under x s) (hs : d.HasSite x) : d.HasSite s := by
  induction hx with
  | refl => exact hs
  | up hp _ ih => exact ih (h.hasSite_parent hp)

theorem transGen_of_under {i : NodeId} {p s : Site} (hp : (d.node i).parent = some p)
    (hs : d.Under p s) : Relation.TransGen d.Contains (.site (.node i)) (.site s) := by
  have hi : ∀ {i p}, (d.node i).parent = some p → d.Contains (.site (.node i)) (.site p) :=
    fun {i p} hp => contains_site.2 (.inl ⟨i, (h.parent_iff p i).2 hp, rfl⟩)
  induction hs generalizing i with
  | refl => exact .single (hi hp)
  | up hp' _ ih => exact .head (hi hp) (ih hp')

/-- A node is not above its parent. -/
theorem not_under_child {c : NodeId} {s : Site} (hc : (d.node c).parent = some s) :
    ¬ d.Under s (.node c) := by
  intro hs
  have hcycle := h.transGen_of_under hc hs
  exact h.wf.transGen.asymmetric _ _ hcycle hcycle

/-- Where no node that was there gets another parent, the ways up stay. -/
theorem under_iff_of_parent {d' : Draft}
    (hparent : ∀ i, i.index < d.nodes.size → (d'.node i).parent = (d.node i).parent) {x s : Site}
    (hx : d.HasSite x) : d'.Under x s ↔ d.Under x s := by
  constructor
  · intro hu
    induction hu with
    | refl => exact .refl _
    | up hp _ ih =>
      rw [hparent _ hx] at hp
      exact .up hp (ih (h.hasSite_parent hp))
  · intro hu
    induction hu with
    | refl => exact .refl _
    | up hp _ ih => exact .up ((hparent _ hx).trans hp) (ih (h.hasSite_parent hp))

end Sound

/-! ### A record without contents may always be added -/

theorem childrenOf_withNode {r : NodeDraft} (hc : r.children = []) (s : Site) :
    (d.withNode r).childrenOf s = d.childrenOf s := by
  cases s with
  | node i =>
    show ((d.withNode r).node i).children = (d.node i).children
    rw [node_withNode]
    split
    · next hi => rw [node_of_size_le (Nat.le_of_eq hi.symm), hc]; rfl
    · rfl
  | _ => rfl

theorem usesAt_withNode {r : NodeDraft} (hu : r.uses = []) (s : Site) :
    (d.withNode r).usesAt s = d.usesAt s := by
  cases s with
  | node i =>
    show ((d.withNode r).node i).uses = (d.node i).uses
    rw [node_withNode]
    split
    · next hi => rw [node_of_size_le (Nat.le_of_eq hi.symm), hu]; rfl
    · rfl
  | _ => rfl

theorem contains_withNode {r : NodeDraft} (hc : r.children = []) (hu : r.uses = []) :
    (d.withNode r).Contains = d.Contains := by
  funext y x
  cases x with
  | site s => simp only [Contains, contents, childrenOf_withNode hc, usesAt_withNode hu]
  | uses u => rfl

theorem Sound.withNode (h : d.Sound) {r : NodeDraft} (hc : r.children = []) (hu : r.uses = [])
    (hp : r.parent = none) : (d.withNode r).Sound where
  unfrozen := h.unfrozen.withNode r
  parent_iff s c := by
    rw [childrenOf_withNode hc, h.parent_iff s c, node_withNode]
    split
    · next hi => rw [node_of_size_le (Nat.le_of_eq hi.symm), hp]; rfl
    · rfl
  uses_lt s u h' := h.uses_lt s u (usesAt_withNode hu s ▸ h')
  augment_lt := h.augment_lt
  wf := by
    rw [contains_withNode hc hu]
    exact h.wf

theorem childrenOf_withModule {r : ModuleDraft} (hc : r.children = []) (s : Site) :
    (d.withModule r).childrenOf s = d.childrenOf s := by
  cases s with
  | module i =>
    show ((d.withModule r).module i).children = (d.module i).children
    rw [module_withModule]
    split
    · next hi => rw [module_of_size_le (Nat.le_of_eq hi.symm), hc]; rfl
    · rfl
  | _ => rfl

theorem childrenOf_withGrouping {r : GroupingDraft} (hc : r.children = []) (s : Site) :
    (d.withGrouping r).childrenOf s = d.childrenOf s := by
  cases s with
  | grouping i =>
    show ((d.withGrouping r).grouping i).children = (d.grouping i).children
    rw [grouping_withGrouping]
    split
    · next hi => rw [grouping_of_size_le (Nat.le_of_eq hi.symm), hc]; rfl
    · rfl
  | _ => rfl

theorem childrenOf_withAugment {r : AugmentDraft} (hc : r.children = []) (s : Site) :
    (d.withAugment r).childrenOf s = d.childrenOf s := by
  cases s with
  | augment i =>
    show ((d.withAugment r).augment i).children = (d.augment i).children
    rw [augment_withAugment]
    split
    · next hi => rw [augment_of_size_le (Nat.le_of_eq hi.symm), hc]; rfl
    · rfl
  | _ => rfl

theorem usesAt_withAugment {r : AugmentDraft} (hu : r.uses = []) (s : Site) :
    (d.withAugment r).usesAt s = d.usesAt s := by
  cases s with
  | augment i =>
    show ((d.withAugment r).augment i).uses = (d.augment i).uses
    rw [augment_withAugment]
    split
    · next hi => rw [augment_of_size_le (Nat.le_of_eq hi.symm), hu]; rfl
    · rfl
  | _ => rfl

theorem contains_withAugment {r : AugmentDraft} (hc : r.children = []) (hu : r.uses = []) :
    (d.withAugment r).Contains = d.Contains := by
  funext y x
  cases x with
  | site s => simp only [Contains, contents, childrenOf_withAugment hc, usesAt_withAugment hu]
  | uses u => rfl

theorem Sound.withAugment (h : d.Sound) {r : AugmentDraft} (hc : r.children = [])
    (hu : r.uses = []) : (d.withAugment r).Sound where
  unfrozen := h.unfrozen.withAugment r
  parent_iff s c := by
    rw [childrenOf_withAugment hc]
    exact h.parent_iff s c
  uses_lt s u h' := h.uses_lt s u (usesAt_withAugment hu s ▸ h')
  augment_lt u a ha := by
    rw [Draft.withAugment, Shelf.size_push]
    exact Nat.lt_succ_of_lt (h.augment_lt u a ha)
  wf := by
    rw [contains_withAugment hc hu]
    exact h.wf

/-! ### One more uses -/

theorem contains_withUses {r : UsesDraft} {x y : Item} (h : (d.withUses r).Contains y x) :
    d.Contains y x ∨ x = .uses ⟨d.uses.size⟩ ∧ ∃ a ∈ r.augmentations, y = .site (.augment a) := by
  cases x with
  | site s => exact .inl h
  | uses u =>
    rw [contains_uses, usesOf_withUses] at h
    split at h
    · next hu => exact .inr ⟨by cases u; cases hu; rfl, h⟩
    · exact .inl (contains_uses.2 h)

/-- A uses of augmentations that contain no others than themselves. -/
theorem Sound.withUses (h : d.Sound) {r : UsesDraft} (N : Item → Prop)
    (hN : ∀ x y, N x → d.Contains y x → N y) (hhas : ∀ x, N x → d.HasItem x)
    (hr : ∀ a ∈ r.augmentations, N (.site (.augment a))) : (d.withUses r).Sound := by
  refine ⟨h.unfrozen.withUses r, h.parent_iff, fun s u hu => ?_, fun u a ha => ?_, ?_⟩
  · rw [Draft.withUses, Shelf.size_push]
    exact Nat.lt_succ_of_lt (h.uses_lt s u hu)
  · rw [usesOf_withUses] at ha
    split at ha
    · exact hhas _ (hr a ha)
    · exact h.augment_lt u a ha
  · refine wellFounded_of_new h.wf N (fun x y hx hy => ?_) fun x y hy => ?_
    · rcases contains_withUses hy with hy | ⟨rfl, -⟩
      · exact ⟨hN x y hx hy, hy⟩
      · exact absurd (hhas _ hx) (Nat.lt_irrefl _)
    · rcases contains_withUses hy with hy | ⟨-, a, ha, rfl⟩
      · exact .inr hy
      · exact .inl (hr a ha)

theorem contains_pushedUses {s : Site} (hs : d.HasSite s) (u : UsesId) {x y : Item} :
    (d.pushedUses s u).Contains y x ↔ d.Contains y x ∨ x = .site s ∧ y = .uses u := by
  cases x with
  | site t =>
    rw [contains_site, contains_site, childrenOf_pushedUses]
    by_cases ht : s = t
    · subst ht
      rw [usesAt_pushedUses_self hs]
      constructor
      · rintro (hc | ⟨v, hv, rfl⟩)
        · exact .inl (.inl hc)
        · rcases List.mem_append.1 hv with hv | hv
          · exact .inl (.inr ⟨v, hv, rfl⟩)
          · exact .inr ⟨rfl, by rw [List.mem_singleton.1 hv]⟩
      · rintro ((hc | ⟨v, hv, rfl⟩) | ⟨-, rfl⟩)
        · exact .inl hc
        · exact .inr ⟨v, List.mem_append_left _ hv, rfl⟩
        · exact .inr ⟨u, by simp, rfl⟩
    · rw [usesAt_pushedUses_of_ne ht]
      constructor
      · exact .inl
      · rintro (h | ⟨h, -⟩)
        · exact h
        · cases h
          exact absurd rfl ht
  | uses v =>
    have hv : (d.pushedUses s u).usesOf v = d.usesOf v := by
      show (d.pushedUses s u).uses.read _ = _
      rw [(sizes_pushedUses s u).2.2.1]
      rfl
    rw [contains_uses, contains_uses, hv]
    simp

theorem Sound.pushedUses (h : d.Sound) {s : Site} (hs : d.HasSite s) {u : UsesId}
    (N : Item → Prop) (hN : ∀ x y, N x → d.Contains y x → N y) (hu : N (.uses u))
    (hlt : u.index < d.uses.size) (hNs : ¬ N (.site s)) : (d.pushedUses s u).Sound := by
  obtain ⟨-, -, h₃, h₄, -⟩ := d.sizes_pushedUses s u
  refine ⟨h.unfrozen.pushedUses s u, fun t c => ?_, fun t v hv => ?_, fun v a ha => ?_, ?_⟩
  · rw [childrenOf_pushedUses, node_pushedUses]
    exact h.parent_iff t c
  · rw [h₃]
    by_cases ht : s = t
    · subst ht
      rw [usesAt_pushedUses_self hs] at hv
      rcases List.mem_append.1 hv with hv | hv
      · exact h.uses_lt s v hv
      · rw [List.mem_singleton.1 hv]
        exact hlt
    · rw [usesAt_pushedUses_of_ne ht] at hv
      exact h.uses_lt t v hv
  · rw [h₄]
    refine h.augment_lt v a ?_
    rwa [Draft.usesOf, h₃] at ha
  · refine wellFounded_of_new h.wf N (fun x y hx hy => ?_) fun x y hy => ?_
    · rcases (contains_pushedUses hs u).1 hy with hy | ⟨rfl, -⟩
      · exact ⟨hN x y hx hy, hy⟩
      · exact absurd hx hNs
    · rcases (contains_pushedUses hs u).1 hy with hy | ⟨-, rfl⟩
      · exact .inr hy
      · exact .inl hu

end Draft

end YangSchema
