import YangSchema.Proofs.Draft.Copying
import YangSchema.Proofs.Draft.Likeness
import YangSchema.Proofs.Draft.References

/-!
# Copying in any draft

Copying needs no more of a draft than that the ways down from the source end and lead to records that are
there; how much of the draft is frozen does not matter.  It adds records, which contain one another only
(`Draft.Adds`), and what it adds mirrors the source (`Draft.duplicates`).
-/

namespace YangSchema

namespace Draft

open Edit

variable {style : CopyStyle} {d₀ d d₁ d₂ d₃ : Draft} {P N : Item → Prop} {s : Site} {c i : NodeId}
  {u : UsesId} {x y x' y' : Item} {l l' : List Item} {fuel : Nat}

/-! ## Snapshots that stay -/

/-- The same snapshots are taken. -/
structure SameSnapshots (d d₁ : Draft) : Prop where
  nodes : ∀ k, d₁.nodes.snapshot? k = d.nodes.snapshot? k
  groupings : ∀ k, d₁.groupings.snapshot? k = d.groupings.snapshot? k
  uses : ∀ k, d₁.uses.snapshot? k = d.uses.snapshot? k
  augments : ∀ k, d₁.augments.snapshot? k = d.augments.snapshot? k
  modules : ∀ k, d₁.modules.snapshot? k = d.modules.snapshot? k

namespace SameSnapshots

theorem refl (d : Draft) : d.SameSnapshots d :=
  ⟨fun _ => rfl, fun _ => rfl, fun _ => rfl, fun _ => rfl, fun _ => rfl⟩

theorem trans (h : d.SameSnapshots d₁) (h' : d₁.SameSnapshots d₂) : d.SameSnapshots d₂ where
  nodes k := (h'.nodes k).trans (h.nodes k)
  groupings k := (h'.groupings k).trans (h.groupings k)
  uses k := (h'.uses k).trans (h.uses k)
  augments k := (h'.augments k).trans (h.augments k)
  modules k := (h'.modules k).trans (h.modules k)

theorem withNode (r : NodeDraft) : d.SameSnapshots (d.withNode r) :=
  { refl d with nodes := Shelf.snapshot?_push _ _ }

theorem withUses (r : UsesDraft) : d.SameSnapshots (d.withUses r) :=
  { refl d with uses := Shelf.snapshot?_push _ _ }

theorem withAugment (r : AugmentDraft) : d.SameSnapshots (d.withAugment r) :=
  { refl d with augments := Shelf.snapshot?_push _ _ }

theorem mapNode (i : NodeId) (g : NodeDraft → NodeDraft) : d.SameSnapshots (d.mapNode i g) :=
  { refl d with nodes := fun _ => Shelf.snapshot?_update _ _ _ _ }

theorem mapGrouping (i : GroupingId) (g : GroupingDraft → GroupingDraft) :
    d.SameSnapshots (d.mapGrouping i g) :=
  { refl d with groupings := fun _ => Shelf.snapshot?_update _ _ _ _ }

theorem mapAugment (i : AugmentId) (g : AugmentDraft → AugmentDraft) :
    d.SameSnapshots (d.mapAugment i g) :=
  { refl d with augments := fun _ => Shelf.snapshot?_update _ _ _ _ }

theorem mapModule (i : ModuleId) (g : ModuleDraft → ModuleDraft) :
    d.SameSnapshots (d.mapModule i g) :=
  { refl d with modules := fun _ => Shelf.snapshot?_update _ _ _ _ }

theorem mapChildren (s : Site) (g : List NodeId → List NodeId) :
    d.SameSnapshots (d.mapChildren s g) := by
  cases s with
  | module i => exact mapModule _ _
  | node i => exact mapNode _ _
  | grouping i => exact mapGrouping _ _
  | augment i => exact mapAugment _ _

theorem pushedUses (s : Site) (u : UsesId) : d.SameSnapshots (d.pushedUses s u) := by
  cases s with
  | module i => exact mapModule _ _
  | node i => exact mapNode _ _
  | grouping i => exact mapGrouping _ _
  | augment i => exact mapAugment _ _

theorem placed (s : Site) (c : NodeId) : d.SameSnapshots (d.placed s c) :=
  (mapChildren s _).trans (mapNode c _)

theorem repathedBelow (h : d.RepathedBelow c d₁) : d.SameSnapshots d₁ where
  nodes := h.snapshot?
  groupings _ := by rw [h.repathed.groupings]
  uses _ := by rw [h.repathed.uses]
  augments _ := by rw [h.repathed.augments]
  modules _ := by rw [h.repathed.modules]

theorem isFrozenAt (h : d.SameSnapshots d₁) (s : Site) : d₁.isFrozenAt s = d.isFrozenAt s := by
  cases s with
  | module i => exact congrArg Option.isSome (h.modules i.index)
  | node i => exact congrArg Option.isSome (h.nodes i.index)
  | grouping i => exact congrArg Option.isSome (h.groupings i.index)
  | augment i => exact congrArg Option.isSome (h.augments i.index)

end SameSnapshots

theorem isFrozenAt_of_not_hasSite (h : ¬ d.HasSite s) : d.isFrozenAt s = false := by
  cases s with
  | module i => exact Shelf.isFrozen_of_size_le (Nat.not_lt.1 h)
  | node i => exact Shelf.isFrozen_of_size_le (Nat.not_lt.1 h)
  | grouping i => exact Shelf.isFrozen_of_size_le (Nat.not_lt.1 h)
  | augment i => exact Shelf.isFrozen_of_size_le (Nat.not_lt.1 h)

/-! ## New records -/

/-- `y` has come to `d` in `d₁`. -/
def New (d d₁ : Draft) (y : Item) : Prop := ¬ d.HasItem y ∧ d₁.HasItem y

/-- `d₁` is `d` with more records: they are open, and contain one another only, nodes such as have come
later. -/
structure Adds (d d₁ : Draft) : Prop where
  extends_ : d.Extends d₁
  snapshots : d.SameSnapshots d₁
  closed : ∀ x y, ¬ d.HasItem x → d₁.Contains y x → New d d₁ y
  later : ∀ i c, d.nodes.size ≤ i.index → c ∈ d₁.childrenOf (.node i) → i.index < c.index

namespace Adds

theorem refl (d : Draft) : d.Adds d where
  extends_ := .refl d
  snapshots := .refl d
  closed _ _ hx hy := absurd (hasItem_of_contains hy) hx
  later _ _ hi hc := absurd (hasSite_of_mem_childrenOf hc) (Nat.not_lt.2 hi)

theorem new (h : d.Adds d₁) (h' : d₁.Adds d₂) (hy : New d d₁ y ∨ New d₁ d₂ y) : New d d₂ y := by
  rcases hy with hy | hy
  · exact ⟨hy.1, h'.extends_.hasItem hy.2⟩
  · exact ⟨fun hy' => hy.1 (h.extends_.hasItem hy'), hy.2⟩

theorem trans (h : d.Adds d₁) (h' : d₁.Adds d₂) : d.Adds d₂ where
  extends_ := h.extends_.trans h'.extends_
  snapshots := h.snapshots.trans h'.snapshots
  closed x y hx hy := by
    by_cases hx₁ : d₁.HasItem x
    · have hy : y ∈ d₁.contents x := h'.extends_.contents hx₁ ▸ hy
      exact h.new h' (.inl (h.closed x y hx hy))
    · exact h.new h' (.inr (h'.closed x y hx₁ hy))
  later i c hi hc := by
    by_cases hi₁ : i.index < d₁.nodes.size
    · rw [h'.extends_.childrenOf (s := .node i) hi₁] at hc
      exact h.later i c hi hc
    · exact h'.later i c (Nat.not_lt.1 hi₁) hc

theorem withNode (d : Draft) {r : NodeDraft} (hc : r.children = []) (hu : r.uses = []) :
    d.Adds (d.withNode r) where
  extends_ := .withNode d r
  snapshots := .withNode r
  closed x y hx hy := by
    rw [contains_withNode hc hu] at hy
    exact absurd (hasItem_of_contains hy) hx
  later i c hi h := by
    rw [childrenOf_withNode hc] at h
    exact absurd (hasSite_of_mem_childrenOf h) (Nat.not_lt.2 hi)

theorem withAugment (d : Draft) {r : AugmentDraft} (hc : r.children = []) (hu : r.uses = []) :
    d.Adds (d.withAugment r) where
  extends_ := .withAugment d r
  snapshots := .withAugment r
  closed x y hx hy := by
    rw [contains_withAugment hc hu] at hy
    exact absurd (hasItem_of_contains hy) hx
  later i c hi h := absurd (hasSite_of_mem_childrenOf h) (Nat.not_lt.2 hi)

/-- A uses is added, with augmentations that are new. -/
theorem withUses (h : d.Adds d₁) {r : UsesDraft}
    (hr : ∀ a ∈ r.augmentations, New d d₁ (.site (.augment a))) : d.Adds (d₁.withUses r) where
  extends_ := h.extends_.trans (.withUses d₁ r)
  snapshots := h.snapshots.trans (.withUses r)
  closed x y hx hy := by
    have hnew : New d d₁ y := by
      rcases contains_withUses hy with hy | ⟨-, a, ha, rfl⟩
      · exact h.closed x y hx hy
      · exact hr a ha
    exact ⟨hnew.1, (Extends.withUses d₁ r).hasItem hnew.2⟩
  later := h.later

/-- A new node is listed at a new site, which came before it. -/
theorem placed (h : d.Adds d₁) (hs : New d d₁ (.site s)) (hc : New d d₁ (.site (.node c)))
    (hlater : ∀ i, s = .node i → i.index < c.index) : d.Adds (d₁.placed s c) := by
  have hitem : ∀ y, (d₁.placed s c).HasItem y ↔ d₁.HasItem y := by
    obtain ⟨h₁, h₂, h₃, h₄, h₅⟩ := d₁.sizes_mapChildren s (· ++ [c])
    exact hasItem_iff_of_sizes ((Shelf.size_update _ _ _).trans h₁) h₂ (congrArg Shelf.size h₃) h₄ h₅
  refine ⟨h.extends_.placed hs.1 hs.2 (Nat.not_lt.1 hc.1) hc.2, h.snapshots.trans (.placed s c),
    fun x y hx hy => ?_, fun i z hi hz => ?_⟩
  · have hnew : New d d₁ y := by
      rcases (contains_placed hs.2).1 hy with hy | ⟨-, rfl⟩
      · exact h.closed x y hx hy
      · exact hc
    exact ⟨hnew.1, (hitem y).2 hnew.2⟩
  · by_cases his : Site.node i = s
    · rw [his, childrenOf_placed_self hs.2] at hz
      rcases List.mem_append.1 hz with hz | hz
      · exact h.later i z hi (his ▸ hz)
      · rw [List.mem_singleton.1 hz]
        exact hlater i his.symm
    · rw [childrenOf_placed_of_ne his] at hz
      exact h.later i z hi hz

/-- A new uses is put at a new site. -/
theorem pushedUses (h : d.Adds d₁) (hs : New d d₁ (.site s)) (hu : New d d₁ (.uses u)) :
    d.Adds (d₁.pushedUses s u) := by
  have hitem : ∀ y, (d₁.pushedUses s u).HasItem y ↔ d₁.HasItem y := by
    obtain ⟨h₁, h₂, h₃, h₄, h₅⟩ := d₁.sizes_pushedUses s u
    exact hasItem_iff_of_sizes h₁ h₂ (congrArg Shelf.size h₃) h₄ h₅
  refine ⟨h.extends_.pushedUses hs.1 hs.2 u, h.snapshots.trans (.pushedUses s u), fun x y hx hy => ?_,
    fun i z hi hz => ?_⟩
  · have hnew : New d d₁ y := by
      rcases (contains_pushedUses hs.2 u).1 hy with hy | ⟨-, rfl⟩
      · exact h.closed x y hx hy
      · exact hu
    exact ⟨hnew.1, (hitem y).2 hnew.2⟩
  · rw [childrenOf_pushedUses] at hz
    exact h.later i z hi hz

/-- Everything that is listed below a new node is new. -/
theorem new_of_below (h : d.Adds d₁) (hc : New d d₁ (.site (.node c))) (hi : d₁.Below i c) :
    New d d₁ (.site (.node i)) := by
  induction hi using Relation.ReflTransGen.head_induction_on with
  | refl => exact hc
  | head hy _ ih => exact h.closed _ _ ih.1 (contains_site.2 (.inl ⟨_, hy, rfl⟩))

/-- Ways down from a new node are no longer than there are nodes after it. -/
theorem nests (h : d.Adds d₁) : ∀ (n : Nat) (i : NodeId), d.nodes.size ≤ i.index →
    d₁.nodes.size ≤ i.index + n → i.index < d₁.nodes.size →
    Nests (fun y x => y ∈ d₁.childrenOf (.node x)) n i
  | 0, _, _, hn, hlt => absurd hlt (Nat.not_lt.2 hn)
  | n + 1, i, hi, hn, _ => .mk fun y hy => by
    have hnew := h.closed (.site (.node i)) _ (Nat.not_lt.2 hi) (contains_site.2 (.inl ⟨y, hy, rfl⟩))
    have hlt : i.index < y.index := h.later i y hi hy
    exact h.nests n y (Nat.not_lt.1 hnew.1) (by omega) hnew.2

/-- Paths are given to new nodes. -/
theorem repathed (h : d.Adds d₁) (hc : New d d₁ (.site (.node c))) (hre : d₁.RepathedBelow c d₂) :
    d.Adds d₂ := by
  have hitem : ∀ y, d₂.HasItem y ↔ d₁.HasItem y :=
    hasItem_iff_of_sizes hre.repathed.size (congrArg Shelf.size hre.repathed.groupings)
      (congrArg Shelf.size hre.repathed.uses) (congrArg Shelf.size hre.repathed.augments)
      (congrArg Shelf.size hre.repathed.modules)
  refine ⟨h.extends_.repathedBelow hre fun i hi hbelow => (h.new_of_below hc hbelow).1 hi,
    h.snapshots.trans (.repathedBelow hre), fun x y hx hy => ?_, fun i z hi hz => ?_⟩
  · have hnew := h.closed x y hx (by rwa [Contains, hre.repathed.contents] at hy)
    exact ⟨hnew.1, (hitem y).2 hnew.2⟩
  · rw [hre.repathed.childrenOf] at hz
    exact h.later i z hi hz

/-- Nothing stops a new node on its way to an augmentation. -/
theorem not_halfPlaced (h : d.Adds d₁) (hc : New d d₁ (.site (.node c))) {a : AugmentId} {f : Fault} :
    ¬ d₁.HalfPlaced (.augment a) c f d₂ := by
  intro hhalf
  have hchildren : ∀ x, d₂.childrenOf (.node x) = d₁.childrenOf (.node x) := by
    intro x
    rw [hhalf.childrenOf, childrenOf_mapChildren_of_ne (by simp)]
  have heq : (fun y x => y ∈ d₂.childrenOf (.node x)) = fun y x => y ∈ d₁.childrenOf (.node x) := by
    funext y x
    rw [hchildren]
  cases hhalf.stops with
  | @frozen j hj hfrozen =>
    have hj : d₁.Below j c := by rwa [Below, heq] at hj
    have hnew := h.new_of_below hc hj
    have hopen := (h.snapshots.isFrozenAt (.node j)).trans (isFrozenAt_of_not_hasSite hnew.1)
    rw [hhalf.isFrozen] at hfrozen
    exact Bool.false_ne_true (hopen.symm.trans hfrozen)
  | endless _ hends =>
    rw [heq] at hends
    exact hends (h.nests _ c (Nat.not_lt.1 hc.1) (Nat.le_add_left _ _) hc.2)

end Adds

/-! ## A copy in the making -/

theorem saysSame_placed (hlt : c.index < d.nodes.size) : SaysSame N d (d.placed s c) where
  node i _ := by
    rw [node_placed hlt]
    rfl
  uses u _ := congrArg UsesDraft.facts (usesOf_placed u)
  augment a _ := by
    rw [show (d.placed s c).augment a = _ from augment_mapChildren s _ a]
    exact ⟨rfl, rfl⟩

theorem saysSame_pushedUses : SaysSame N d (d.pushedUses s u) where
  node i _ := by
    rw [node_pushedUses]
    rfl
  uses v _ := by
    rw [usesOf, (d.sizes_pushedUses s u).2.2.1]
    rfl
  augment a _ := by
    rw [augment_pushedUses]
    exact ⟨rfl, rfl⟩

theorem SaysSame.trans (h : SaysSame N d d₁) (h' : SaysSame N d₁ d₂) : SaysSame N d d₂ where
  node i hi := by
    rw [h'.node i hi, h.node i hi]
    rfl
  uses v hv := (h'.uses v hv).trans (h.uses v hv)
  augment a ha := ⟨(h'.augment a ha).1.trans (h.augment a ha).1, (h'.augment a ha).2.trans (h.augment a ha).2⟩

theorem contents_placed_of_ne (hy : y ≠ .site s) : (d.placed s c).contents y = d.contents y := by
  cases y with
  | site t =>
    have ht : t ≠ s := fun h => hy (congrArg Item.site h)
    simp only [contents, childrenOf_placed_of_ne ht, usesAt_placed]
  | uses v => simp only [contents, usesOf_placed]

theorem contents_placed_self (hs : d.HasSite s) (hu : d.usesAt s = []) :
    (d.placed s c).contents (.site s) = d.contents (.site s) ++ [.site (.node c)] := by
  simp [contents, childrenOf_placed_self hs, usesAt_placed, hu]

theorem contents_pushedUses_of_ne (hy : y ≠ .site s) : (d.pushedUses s u).contents y = d.contents y := by
  cases y with
  | site t =>
    have ht : s ≠ t := fun h => hy (congrArg Item.site h.symm)
    simp only [contents, childrenOf_pushedUses, usesAt_pushedUses_of_ne ht]
  | uses v =>
    simp only [contents, usesOf, (d.sizes_pushedUses s u).2.2.1]

theorem contents_pushedUses_self (hs : d.HasSite s) :
    (d.pushedUses s u).contents (.site s) = d.contents (.site s) ++ [.uses u] := by
  simp [contents, childrenOf_pushedUses, usesAt_pushedUses_self hs]

/-- The new site `s` is a copy of `x` in the making: so far it contains copies of `done`. -/
structure Making (style : CopyStyle) (d₀ d : Draft) (x : Item) (s : Site) (done : List Item)
    (d₁ : Draft) : Prop where
  adds : d.Adds d₁
  new : New d d₁ (.site s)
  like : style.ItemLike d₀ d₁ x (.site s)
  mirrors : Mirrors style d₀ (fun y => New d d₁ y ∧ y ≠ .site s) d₁ done (d₁.contents (.site s))

/-- With the copies of all that its source contains, the copy is made. -/
theorem Making.made (h : Making style d₀ d x s (d₀.contents x) d₁) :
    Mirrors style d₀ (New d d₁) d₁ [x] [.site s] := by
  refine (h.mirrors.around h.like fun hne => hne.2 rfl).mono ?_
  rintro y (rfl | hy)
  · exact h.new
  · exact hy.1

/-- One more copy is made, and put into the copy in the making. -/
theorem Making.next {done : List Item} (h : Making style d₀ d x s done d₁) (hadds : d₁.Adds d₂)
    (hy : Mirrors style d₀ (New d₁ d₂) d₂ [y] [y']) (hadds₃ : d.Adds d₃)
    (hitem : ∀ z, d₂.HasItem z → d₃.HasItem z) (hsame : SaysSame (fun _ => True) d₂ d₃)
    (hcontents : ∀ z, z ≠ .site s → d₃.contents z = d₂.contents z)
    (hself : d₃.contents (.site s) = d₂.contents (.site s) ++ [y']) :
    Making style d₀ d x s (done ++ [y]) d₃ := by
  have hext := Steady.of_extends hadds.extends_
  -- the old copies and the new one, before it is put there
  have hall := (h.mirrors.steady (hext.mono fun z hz => hz.1.2)).append hy
    fun z hz hnew => hnew.1 hz.1.2
  have hne : ∀ z, (New d d₁ z ∧ z ≠ .site s) ∨ New d₁ d₂ z → New d d₂ z ∧ z ≠ .site s := by
    rintro z (hz | hz)
    · exact ⟨h.adds.new hadds (.inl hz.1), hz.2⟩
    · refine ⟨h.adds.new hadds (.inr hz), ?_⟩
      rintro rfl
      exact hz.1 h.new.2
  have hsteady : Steady (fun z => New d d₂ z ∧ z ≠ .site s) d₂ d₃ :=
    { node := fun i _ => hsame.node i trivial
      uses := fun v _ => hsame.uses v trivial
      augment := fun a _ => hsame.augment a trivial
      contents := fun z hz => hcontents z hz.2 }
  refine ⟨hadds₃, ⟨h.new.1, hitem _ (hadds.extends_.hasItem h.new.2)⟩, ?_, ?_⟩
  · exact hsame.itemLike trivial (hext.toSaysSame.itemLike h.new.2 h.like)
  · rw [hself, hadds.extends_.contents h.new.2]
    exact ((hall.mono hne).steady hsteady).mono fun z hz => ⟨⟨hz.1.1, hitem z hz.1.2⟩, hz.2⟩

/-! ## The functions -/

/-- With this fuel the nodes of `d₀` that `P` holds of are copied. -/
def DuplicatesNodes (style : CopyStyle) (P : Item → Prop) (d₀ : Draft) (fuel : Nat) : Prop :=
  ∀ source d, d₀.Extends d → P (.site (.node source)) →
    Nests d₀.Contains fuel (.site (.node source)) →
    Ends (copyNodeUpTo style fuel source) d (fun c d' => d.Adds d' ∧
      Mirrors style d₀ (New d d') d' [.site (.node source)] [.site (.node c)] ∧
      (d'.node c).parent = none) fun _ _ => False

/-- With this fuel the uses of `d₀` that `P` holds of are copied. -/
def DuplicatesUses (style : CopyStyle) (P : Item → Prop) (d₀ : Draft) (fuel : Nat) : Prop :=
  ∀ source d, d₀.Extends d → P (.uses source) → Nests d₀.Contains fuel (.uses source) →
    Ends (copyUsesUpTo style fuel source) d (fun u d' => d.Adds d' ∧
      Mirrors style d₀ (New d d') d' [.uses source] [.uses u]) fun _ _ => False

/-- With this fuel the augmentations of `d₀` that `P` holds of are copied. -/
def DuplicatesAugments (style : CopyStyle) (P : Item → Prop) (d₀ : Draft) (fuel : Nat) : Prop :=
  ∀ source d, d₀.Extends d → P (.site (.augment source)) →
    Nests d₀.Contains fuel (.site (.augment source)) →
    Ends (copyAugmentUpTo style fuel source) d (fun a d' => d.Adds d' ∧
      Mirrors style d₀ (New d d') d' [.site (.augment source)] [.site (.augment a)]) fun _ _ => False

/-- What stands first among copies is new. -/
theorem Mirrors.new_head (h : Mirrors style d₀ N d l (y :: l')) : N y :=
  h.inside 0 [] y rfl

theorem Making.isFrozenAt {done : List Item} (h : Making style d₀ d x s done d₁) (hadds : d₁.Adds d₂) :
    d₂.isFrozenAt s = false := by
  rw [hadds.snapshots.isFrozenAt, h.adds.snapshots.isFrozenAt]
  exact isFrozenAt_of_not_hasSite h.new.1

/-- Copied uses are put into a copy in the making, one after the other. -/
theorem DuplicatesUses.ends_forM (hcopy : DuplicatesUses style P d₀ fuel) {done : List Item}
    {l : List UsesId} (hl : ∀ u ∈ l, P (.uses u) ∧ Nests d₀.Contains fuel (.uses u))
    (he : d₀.Extends d) (hm : Making style d₀ d x s done d₁) :
    Ends (l.forM fun u => do pushUses s (← copyUsesUpTo style fuel u)) d₁
      (fun _ d₂ => Making style d₀ d x s (done ++ l.map .uses) d₂ ∧
        ∀ i, s = .node i → (d₂.node i).parent = (d₁.node i).parent) fun _ _ => False := by
  refine Edit.ends_forM (I := fun pre d₂ => Making style d₀ d x s (done ++ pre.map .uses) d₂ ∧
    ∀ i, s = .node i → (d₂.node i).parent = (d₁.node i).parent) l
    ⟨by simpa using hm, fun _ _ => rfl⟩ ?_
  rintro pre u post d₂ hl' ⟨hm₂, hparent⟩
  obtain ⟨hu, hfuel⟩ := hl u (by rw [hl']; simp)
  rw [ends_bind]
  refine (hcopy u d₂ (he.trans hm₂.adds.extends_) hu hfuel).mono ?_ fun _ _ hE => hE
  rintro v d₃ ⟨hadds, hv⟩
  have hs₃ : d₃.HasSite s := hadds.extends_.hasSite hm₂.new.2
  have hv' : New d d₃ (.uses v) := hm₂.adds.new hadds (.inr hv.new_head)
  rw [ends_pushUses_any, hm₂.isFrozenAt hadds, if_neg Bool.false_ne_true]
  have hadds₄ := (hm₂.adds.trans hadds).pushedUses ⟨hm₂.new.1, hs₃⟩ hv'
  refine ⟨?_, fun i hi => ?_⟩
  · rw [List.map_append, ← List.append_assoc]
    refine hm₂.next hadds hv hadds₄ (fun z hz => ?_) saysSame_pushedUses
      (fun z hz => contents_pushedUses_of_ne hz) (contents_pushedUses_self hs₃)
    obtain ⟨h₁, h₂, h₃, h₄, h₅⟩ := d₃.sizes_pushedUses s v
    exact (hasItem_iff_of_sizes h₁ h₂ (congrArg Shelf.size h₃) h₄ h₅ z).2 hz
  · rw [node_pushedUses, hadds.extends_.node i (by have := hm₂.new.2; rw [hi] at this; exact this)]
    exact hparent i hi

/-- A new node is listed at the copy in the making. -/
theorem Making.placed {done : List Item} (h : Making style d₀ d x s done d₁) (hu : d₁.usesAt s = [])
    (hadds : d₁.Adds d₂) (hy : Mirrors style d₀ (New d₁ d₂) d₂ [y] [.site (.node c)])
    (hre : (d₂.placed s c).RepathedBelow c d₃) :
    Making style d₀ d x s (done ++ [y]) d₃ ∧ d₃.usesAt s = [] := by
  have hs₂ : d₂.HasSite s := hadds.extends_.hasSite h.new.2
  have hu₂ : d₂.usesAt s = [] := (hadds.extends_.usesAt h.new.2).trans hu
  have hnew : New d d₂ (.site (.node c)) := h.adds.new hadds (.inr hy.new_head)
  have hlater : ∀ i, s = .node i → i.index < c.index := by
    rintro i rfl
    exact Nat.lt_of_lt_of_le h.new.2 (Nat.not_lt.1 hy.new_head.1)
  have hitem : ∀ z, (d₂.placed s c).HasItem z ↔ d₂.HasItem z := by
    obtain ⟨h₁, h₂, h₃, h₄, h₅⟩ := d₂.sizes_mapChildren s (· ++ [c])
    exact hasItem_iff_of_sizes ((Shelf.size_update _ _ _).trans h₁) h₂ (congrArg Shelf.size h₃) h₄ h₅
  have hitem' : ∀ z, d₃.HasItem z ↔ (d₂.placed s c).HasItem z :=
    hasItem_iff_of_sizes hre.repathed.size (congrArg Shelf.size hre.repathed.groupings)
      (congrArg Shelf.size hre.repathed.uses) (congrArg Shelf.size hre.repathed.augments)
      (congrArg Shelf.size hre.repathed.modules)
  have hplaced := (h.adds.trans hadds).placed ⟨h.new.1, hs₂⟩ hnew hlater
  have hre' := Steady.of_repathed (N := fun _ => True) hre.repathed
  refine ⟨h.next hadds hy (hplaced.repathed ⟨hnew.1, (hitem _).2 hnew.2⟩ hre)
    (fun z hz => (hitem' z).2 ((hitem z).2 hz)) ((saysSame_placed hnew.2).trans hre'.toSaysSame)
    (fun z hz => ?_) ?_, ?_⟩
  · rw [hre.repathed.contents, contents_placed_of_ne hz]
  · rw [hre.repathed.contents, contents_placed_self hs₂ hu₂]
  · rw [hre.repathed.usesAt, usesAt_placed, hu₂]

section

variable (hP : ∀ x y, P x → d₀.Contains y x → P y) (hhas : ∀ x, P x → d₀.HasItem x)
include hP hhas

theorem DuplicatesNodes.succ (hn : DuplicatesNodes style P d₀ fuel)
    (hu : DuplicatesUses style P d₀ fuel) : DuplicatesNodes style P d₀ (fuel + 1) := by
  intro source d he hsource hfuel
  have hhere : ∀ y, d₀.Contains y (.site (.node source)) → P y ∧ Nests d₀.Contains fuel y :=
    fun y hy => ⟨hP _ _ hsource hy, hfuel.down hy⟩
  rw [copyNodeUpTo, ends_bind, ends_get]
  dsimp only
  rw [he.node source (hhas _ hsource), ends_bind, ends_addNode, ends_bind]
  have hself : (d.withNode (style.node source (d₀.node source))).node ⟨d.nodes.size⟩ =
      style.node source (d₀.node source) := by
    rw [node_withNode_self]
  have hnew : New d (d.withNode (style.node source (d₀.node source))) (.site (.node ⟨d.nodes.size⟩)) := by
    refine ⟨Nat.lt_irrefl _, ?_⟩
    exact Shelf.lt_size_push _ _
  -- the copies of the children
  refine (ends_forM (I := fun pre d₁ =>
    Making style d₀ d (.site (.node source)) (.node ⟨d.nodes.size⟩) (pre.map (.site ∘ .node)) d₁ ∧
    d₁.usesAt (.node ⟨d.nodes.size⟩) = [] ∧ (d₁.node ⟨d.nodes.size⟩).parent = none)
    (d₀.node source).children ⟨⟨.withNode d rfl rfl, hnew, ?_, ?_⟩, ?_, ?_⟩ ?_).mono ?_ fun _ _ hE => hE
  · refine .node ?_
    rw [hself]
    exact style.nodeLike_node source _
  · simp only [contents, childrenOf, usesAt, hself]
    exact .nil
  · simp only [usesAt, hself]
    rfl
  · rw [hself]
    rfl
  · rintro pre child post d₁ hl ⟨hm, huses, hparent⟩
    obtain ⟨hchild, hfuel⟩ := hhere (.site (.node child)) (contains_site.2 (.inl ⟨child, by
      show child ∈ (d₀.node source).children
      rw [hl]
      simp, rfl⟩))
    rw [ends_bind]
    refine (hn child d₁ (he.trans hm.adds.extends_) hchild hfuel).mono ?_ fun _ _ hE => hE
    rintro c d₂ ⟨hadds, hc, -⟩
    have hne : (⟨d.nodes.size⟩ : NodeId) ≠ c := by
      rintro rfl
      exact hc.new_head.1 hm.new.2
    have hlt : c.index < d₂.nodes.size := hc.new_head.2
    have hopen : d₂.nodes.isFrozen c.index = false :=
      ((hadds.snapshots.isFrozenAt (.node c)).trans (isFrozenAt_of_not_hasSite hc.new_head.1) :)
    rw [ends_bind, ends_editChildren_any, hm.isFrozenAt hadds, if_neg Bool.false_ne_true,
      ends_editNode_any, isFrozen_mapChildren, hopen, if_neg Bool.false_ne_true]
    change _ ∧ _ ∧ ((d₂.placed (.node ⟨d.nodes.size⟩) c).node ⟨d.nodes.size⟩).parent = none
    obtain ⟨hm₃, huses₃⟩ := hm.placed huses hadds hc (.refl _ _)
    refine ⟨by rw [List.map_append]; exact hm₃, huses₃, ?_⟩
    rw [node_placed hlt, if_neg hne, hadds.extends_.node ⟨d.nodes.size⟩ hm.new.2]
    exact hparent
  · rintro - d₁ ⟨hm, -, hparent⟩
    rw [ends_bind]
    -- the copies of the uses
    refine (hu.ends_forM (fun u hu => hhere (.uses u) (contains_site.2 (.inr ⟨u, hu, rfl⟩))) he hm).mono
      ?_ fun _ _ hE => hE
    rintro - d₂ ⟨hm₂, hparent₂⟩
    exact ⟨hm₂.adds, hm₂.made, (hparent₂ _ rfl).trans hparent⟩

theorem DuplicatesUses.succ (ha : DuplicatesAugments style P d₀ fuel) :
    DuplicatesUses style P d₀ (fuel + 1) := by
  intro source d he hsource hfuel
  rw [copyUsesUpTo, ends_bind, ends_get]
  dsimp only
  rw [he.usesOf source (hhas _ hsource), ends_bind]
  refine (ends_mapM (I := fun pre rs d₁ => d.Adds d₁ ∧ Mirrors style d₀ (New d d₁) d₁
    (pre.map (.site ∘ .augment)) (rs.map (.site ∘ .augment))) (d₀.usesOf source).augmentations
    ⟨.refl d, .nil⟩ ?_).mono ?_ fun _ _ hE => hE
  · rintro pre a post rs d₁ hl ⟨hadds, hm⟩
    have hin : d₀.Contains (.site (.augment a)) (.uses source) := by
      refine contains_uses.2 ⟨a, ?_, rfl⟩
      rw [hl]
      simp
    refine (ha a d₁ (he.trans hadds.extends_) (hP _ _ hsource hin) (hfuel.down hin)).mono ?_
      fun _ _ hE => hE
    rintro b d₂ ⟨hadds₂, hb⟩
    refine ⟨hadds.trans hadds₂, ?_⟩
    rw [List.map_append, List.map_append]
    have hall := (hm.steady ((Steady.of_extends hadds₂.extends_).mono fun z hz => hz.2)).append hb
      fun z hz hnew => hnew.1 hz.2
    exact hall.mono fun z hz => hadds.new hadds₂ hz
  · rintro rs d₁ ⟨hadds, hm⟩
    rw [ends_addUses]
    have hnew : ∀ a ∈ rs, New d d₁ (.site (.augment a)) := by
      intro a ha
      obtain ⟨k, hk⟩ := List.mem_iff_getElem?.1 ha
      refine hm.inside k [] _ ?_
      rw [itemIn?, List.getElem?_map, hk]
      rfl
    have hself : (d₁.withUses (style.uses (d₀.usesOf source) rs)).usesOf ⟨d₁.uses.size⟩ =
        style.uses (d₀.usesOf source) rs := by
      rw [usesOf_withUses_self]
    have hext := Extends.withUses d₁ (style.uses (d₀.usesOf source) rs)
    have hadds' : d.Adds (d₁.withUses (style.uses (d₀.usesOf source) rs)) := hadds.withUses hnew
    refine ⟨hadds', ?_⟩
    have hsteady := (Steady.of_extends hext).mono fun z (hz : New d d₁ z) => hz.2
    have hm' := hm.steady hsteady
    have hcontents : (d₁.withUses (style.uses (d₀.usesOf source) rs)).contents (.uses ⟨d₁.uses.size⟩) =
        rs.map (.site ∘ .augment) := by
      simp only [contents, hself]
      rfl
    rw [← hcontents] at hm'
    refine (Mirrors.around (x := .uses source) hm' ?_ fun h => Nat.lt_irrefl _ h.2).mono ?_
    · refine .uses ?_
      rw [hself]
      exact style.usesLike_uses _ _
    · rintro y (rfl | hy)
      · refine ⟨fun h => Nat.lt_irrefl _ (Nat.lt_of_lt_of_le h hadds.extends_.uses_le), ?_⟩
        exact Shelf.lt_size_push _ _
      · exact ⟨hy.1, hext.hasItem hy.2⟩

theorem DuplicatesAugments.succ (hn : DuplicatesNodes style P d₀ fuel)
    (hu : DuplicatesUses style P d₀ fuel) : DuplicatesAugments style P d₀ (fuel + 1) := by
  intro source d he hsource hfuel
  have hhere : ∀ y, d₀.Contains y (.site (.augment source)) → P y ∧ Nests d₀.Contains fuel y :=
    fun y hy => ⟨hP _ _ hsource hy, hfuel.down hy⟩
  rw [copyAugmentUpTo, ends_bind, ends_get]
  dsimp only
  rw [he.augment source (hhas _ hsource), ends_bind, ends_addAugment, ends_bind]
  have hself : (d.withAugment (style.augment source (d₀.augment source))).augment ⟨d.augments.size⟩ =
      style.augment source (d₀.augment source) := by
    rw [augment_withAugment_self]
  have hnew : New d (d.withAugment (style.augment source (d₀.augment source)))
      (.site (.augment ⟨d.augments.size⟩)) := by
    refine ⟨Nat.lt_irrefl _, ?_⟩
    exact Shelf.lt_size_push _ _
  -- the copies of the nodes, each with the paths that belong there
  refine (ends_forM (I := fun pre d₁ =>
    Making style d₀ d (.site (.augment source)) (.augment ⟨d.augments.size⟩) (pre.map (.site ∘ .node)) d₁ ∧
    d₁.usesAt (.augment ⟨d.augments.size⟩) = [])
    (d₀.augment source).children ⟨⟨.withAugment d rfl rfl, hnew, ?_, ?_⟩, ?_⟩ ?_).mono ?_ fun _ _ hE => hE
  · refine .augment ?_
    rw [hself]
    exact style.augmentLike_augment source _
  · simp only [contents, childrenOf, usesAt, hself]
    exact .nil
  · simp only [usesAt, hself]
    rfl
  · rintro pre child post d₁ hl ⟨hm, huses⟩
    obtain ⟨hchild, hfuel⟩ := hhere (.site (.node child)) (contains_site.2 (.inl ⟨child, by
      show child ∈ (d₀.augment source).children
      rw [hl]
      simp, rfl⟩))
    rw [ends_bind]
    refine (hn child d₁ (he.trans hm.adds.extends_) hchild hfuel).mono ?_ fun _ _ hE => hE
    rintro c d₂ ⟨hadds, hc, -⟩
    rw [ends_discard, attach, ends_bind, ends_get]
    dsimp only
    rw [ends_bind]
    refine (ends_place_any (.augment ⟨d.augments.size⟩) c d₂).mono ?_ fun f d₃ h => ?_
    · rintro - d₃ ⟨-, hre, -⟩
      rw [ends_pure]
      obtain ⟨hm₃, huses₃⟩ := hm.placed huses hadds hc hre
      exact ⟨by rw [List.map_append]; exact hm₃, huses₃⟩
    · rcases h with ⟨hfrozen, -⟩ | ⟨-, hhalf⟩
      · rw [hm.isFrozenAt hadds] at hfrozen
        cases hfrozen
      · exact hadds.not_halfPlaced hc.new_head hhalf
  · rintro - d₁ ⟨hm, -⟩
    rw [ends_bind]
    -- the copies of the uses
    refine (hu.ends_forM (fun u hu => hhere (.uses u) (contains_site.2 (.inr ⟨u, hu, rfl⟩))) he hm).mono
      ?_ fun _ _ hE => hE
    rintro - d₂ ⟨hm₂, -⟩
    exact ⟨hm₂.adds, hm₂.made⟩

end

theorem duplicates (hP : ∀ x y, P x → d₀.Contains y x → P y) (hhas : ∀ x, P x → d₀.HasItem x)
    (fuel : Nat) : DuplicatesNodes style P d₀ fuel ∧ DuplicatesUses style P d₀ fuel ∧
      DuplicatesAugments style P d₀ fuel := by
  induction fuel with
  | zero =>
    refine ⟨?_, ?_, ?_⟩
    all_goals
      intro _ _ _ _ hfuel
      cases hfuel
  | succ fuel ih =>
    obtain ⟨hn, hu, ha⟩ := ih
    exact ⟨hn.succ hP hhas hu, .succ hP hhas ha, .succ hP hhas hn hu⟩

end Draft

end YangSchema
