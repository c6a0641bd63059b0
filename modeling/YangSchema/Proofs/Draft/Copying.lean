import YangSchema.Draft.Copy
import YangSchema.Proofs.Draft.Placing

/-!
# What copying makes

Copying a definition of a sound draft succeeds (`ends_copyNode`, `ends_copyUses`).  It changes no
record that was there; the new records refer to new ones only; and every new node is a copy of some
node inside what is copied (`CopyOf`): it says the same up to the style of the copy, and its children
are the copies of the children, one for one.
-/

namespace YangSchema

namespace Draft

open Edit

variable {style : CopyStyle} {d₀ d d₁ d₂ : Draft} {X : NodeId → Prop} {P : Item → Prop}

/-! ## Copies -/

/-- The node `i` of `d` is a copy of the node `o` of `d₀` with copies of `children`. -/
structure CopyUpTo (style : CopyStyle) (d₀ d : Draft) (o i : NodeId) (children : List NodeId) :
    Prop where
  node : d.node i = { (style.node o (d₀.node o)).withPath (d.node i).path with
    children := (d.node i).children
    uses := (d.node i).uses
    parent := (d.node i).parent }
  children : (d.node i).children.map (fun c => (d.node c).origin) = children.map some

/-- The node `i` of `d` is a copy of the node `o` of `d₀`. -/
def CopyOf (style : CopyStyle) (d₀ d : Draft) (o i : NodeId) : Prop :=
  CopyUpTo style d₀ d o i (d₀.node o).children

namespace CopyUpTo

variable {o i : NodeId} {children : List NodeId}

theorem origin (h : CopyUpTo style d₀ d o i children) : (d.node i).origin = some o := by
  rw [h.node]
  rfl

theorem name (h : CopyUpTo style d₀ d o i children) :
    (d.node i).name = style.name (d₀.node o).name := by
  rw [h.node]
  rfl

theorem kind (h : CopyUpTo style d₀ d o i children) :
    (d.node i).kind = style.kind (d₀.node o).kind := by
  rw [h.node]
  rfl

/-- A copy stays a copy when only paths, uses and parents change. -/
theorem congr (h : CopyUpTo style d₀ d o i children)
    (hnode : d₁.node i = { (d.node i).withPath (d₁.node i).path with
      uses := (d₁.node i).uses
      parent := (d₁.node i).parent })
    (horigin : ∀ c ∈ (d.node i).children, (d₁.node c).origin = (d.node c).origin) :
    CopyUpTo style d₀ d₁ o i children where
  node := by
    rw [hnode]
    generalize d₁.node i = r
    rw [h.node]
    rfl
  children := by
    have hc : (d₁.node i).children = (d.node i).children := by rw [hnode]; rfl
    rw [hc, ← h.children]
    exact List.map_congr_left horigin

end CopyUpTo

/-! ## Growth by copies -/

/-- `d₁` grew out of `d` by copies of what `P` holds of in `d₀`; the nodes in `X` are in the making. -/
structure Grows (style : CopyStyle) (X : NodeId → Prop) (P : Item → Prop) (d₀ d d₁ : Draft) : Prop where
  extends_ : d.Extends d₁
  sound : d₁.Sound
  /-- What is new refers to new things only. -/
  closed : ∀ x y, ¬ d.HasItem x → d₁.Contains y x → ¬ d.HasItem y
  copied : ∀ i, d.nodes.size ≤ i.index → i.index < d₁.nodes.size →
    X i ∨ ∃ o, P (.site (.node o)) ∧ CopyOf style d₀ d₁ o i
  augments : ∀ a, d.augments.size ≤ a.index → a.index < d₁.augments.size →
    ∃ o, P (.site (.augment o)) ∧ (d₁.augment a).origin = some o

namespace Grows

theorem refl (hd : d.Sound) : Grows style X P d₀ d d where
  extends_ := .refl d
  sound := hd
  closed _ _ hx hy := absurd (hasItem_of_contains hy) hx
  copied _ h₁ h₂ := absurd h₁ (Nat.not_le.2 h₂)
  augments _ h₁ h₂ := absurd h₁ (Nat.not_le.2 h₂)

/-- A copy is in the making. -/
theorem withNode (hd : d.Sound) {r : NodeDraft} (hc : r.children = []) (hu : r.uses = [])
    (hp : r.parent = none) : Grows style (· = ⟨d.nodes.size⟩) P d₀ d (d.withNode r) where
  extends_ := .withNode d r
  sound := hd.withNode hc hu hp
  closed x y hx hy := by
    rw [contains_withNode hc hu] at hy
    exact absurd (hasItem_of_contains hy) hx
  copied i h₁ h₂ := by
    rw [Draft.withNode, Shelf.size_push] at h₂
    refine .inl ?_
    cases i
    exact congrArg NodeId.mk (Nat.le_antisymm (Nat.le_of_lt_succ h₂) h₁)
  augments _ h₁ h₂ := absurd h₁ (Nat.not_le.2 h₂)

theorem withAugment (hd : d.Sound) {r : AugmentDraft} (hc : r.children = []) (hu : r.uses = [])
    {o : AugmentId} (ho : P (.site (.augment o))) (hr : r.origin = some o) :
    Grows style X P d₀ d (d.withAugment r) where
  extends_ := .withAugment d r
  sound := hd.withAugment hc hu
  closed x y hx hy := by
    rw [contains_withAugment hc hu] at hy
    exact absurd (hasItem_of_contains hy) hx
  copied i h₁ h₂ := absurd h₁ (Nat.not_le.2 h₂)
  augments a h₁ h₂ := by
    rw [Draft.withAugment, Shelf.size_push] at h₂
    refine ⟨o, ho, ?_⟩
    rw [augment_withAugment, if_pos (Nat.le_antisymm (Nat.le_of_lt_succ h₂) h₁), hr]

/-- What grew stays a copy when the draft grows on. -/
theorem copied_extends (h : Grows style X P d₀ d d₁) (he : d₁.Extends d₂) :
    ∀ i, d.nodes.size ≤ i.index → i.index < d₁.nodes.size →
      X i ∨ ∃ o, P (.site (.node o)) ∧ CopyOf style d₀ d₂ o i := by
  intro i h₁ h₂
  refine (h.copied i h₁ h₂).imp id ?_
  rintro ⟨o, ho, hcopy⟩
  refine ⟨o, ho, hcopy.congr (by rw [he.node i h₂]; rfl) fun c hc => ?_⟩
  have hc' : c ∈ d₁.childrenOf (.node i) := hc
  rw [he.node c (h.sound.child_lt hc')]

theorem augments_extends (h : Grows style X P d₀ d d₁) (he : d₁.Extends d₂) :
    ∀ a, d.augments.size ≤ a.index → a.index < d₁.augments.size →
      ∃ o, P (.site (.augment o)) ∧ (d₂.augment a).origin = some o := by
  intro a h₁ h₂
  rw [he.augment a h₂]
  exact h.augments a h₁ h₂

theorem trans {Y : NodeId → Prop} (h : Grows style X P d₀ d d₁) (h' : Grows style Y P d₀ d₁ d₂)
    (hY : ∀ i, Y i → X i) : Grows style X P d₀ d d₂ where
  extends_ := h.extends_.trans h'.extends_
  sound := h'.sound
  closed x y hx hy := by
    by_cases hx₁ : d₁.HasItem x
    · have hc : y ∈ d₁.contents x := h'.extends_.contents hx₁ ▸ hy
      exact h.closed x y hx hc
    · exact fun hy₀ => h'.closed x y hx₁ hy (h.extends_.hasItem hy₀)
  copied i h₁ h₂ := by
    by_cases hi : i.index < d₁.nodes.size
    · exact h.copied_extends h'.extends_ i h₁ hi
    · exact (h'.copied i (Nat.not_lt.1 hi) h₂).imp (hY i) id
  augments a h₁ h₂ := by
    by_cases ha : a.index < d₁.augments.size
    · exact h.augments_extends h'.extends_ a h₁ ha
    · exact h'.augments a (Nat.not_lt.1 ha) h₂

/-- The things that are new in `d₂` are closed under what they contain. -/
theorem new_closed (h : Grows style X P d₀ d d₁) :
    ∀ x y, (d₁.HasItem x ∧ ¬ d.HasItem x) → d₁.Contains y x → d₁.HasItem y ∧ ¬ d.HasItem y :=
  fun x y hx hy => ⟨h.sound.hasItem_of_contains hy, h.closed x y hx.2 hy⟩

/-- A new node is loose as long as it has no parent. -/
theorem loose (h : Grows style X P d₀ d d₁) {c : NodeId} (hc : d.nodes.size ≤ c.index)
    (hlt : c.index < d₁.nodes.size) (hparent : (d₁.node c).parent = none) :
    d₁.Loose (fun x => d₁.HasItem x ∧ ¬ d.HasItem x) c :=
  ⟨hlt, hparent, ⟨hlt, Nat.not_lt.2 hc⟩, h.new_closed⟩

/-- New augmentations are put into a uses. -/
theorem withUses {r : UsesDraft} (h : Grows style X P d₀ d d₁)
    (hr : ∀ a ∈ r.augmentations, d.augments.size ≤ a.index ∧ a.index < d₁.augments.size) :
    Grows style X P d₀ d (d₁.withUses r) where
  extends_ := h.extends_.trans (.withUses d₁ r)
  sound := h.sound.withUses _ h.new_closed (fun _ hx => hx.1)
    fun a ha => ⟨(hr a ha).2, Nat.not_lt.2 (hr a ha).1⟩
  closed x y hx hy := by
    rcases contains_withUses hy with hy | ⟨-, a, ha, rfl⟩
    · exact h.closed x y hx hy
    · exact Nat.not_lt.2 (hr a ha).1
  copied := h.copied_extends (.withUses d₁ r)
  augments := h.augments_extends (.withUses d₁ r)

/-- A copy that is made is hung into a copy in the making. -/
theorem hang {copy c : NodeId} (h : Grows style (· = copy) P d₀ d d₁)
    (hcopy : d.nodes.size ≤ copy.index) (hcopy₁ : copy.index < d₁.nodes.size)
    (h' : Grows style (fun _ => False) P d₀ d₁ d₂) (hc : d₁.nodes.size ≤ c.index)
    (hlt : c.index < d₂.nodes.size) (hparent : (d₂.node c).parent = none) :
    Grows style (· = copy) P d₀ d (d₂.placed (.node copy) c) := by
  have hg : Grows style (· = copy) P d₀ d d₂ := h.trans h' fun _ h => h.elim
  have hs : d₂.HasSite (.node copy) := h'.extends_.hasSite (s := .node copy) hcopy₁
  have hloose := h'.loose hc hlt hparent
  have hN : ¬ (d₂.HasItem (.site (.node copy)) ∧ ¬ d₁.HasItem (.site (.node copy))) :=
    fun h => h.2 hcopy₁
  have hsize : (d₂.placed (.node copy) c).nodes.size = d₂.nodes.size := by
    show Shelf.size (Shelf.update _ _ _) = _
    rw [Shelf.size_update, (sizes_mapChildren _ _).1]
  refine ⟨hg.extends_.placed (Nat.not_lt.2 hcopy) hs (Nat.le_trans h.extends_.nodes_le hc) hlt,
    hg.sound.placed hs hloose hN, ?_, ?_, hg.augments⟩
  · intro x y hx hy
    rcases (contains_placed hs).1 hy with hy | ⟨-, rfl⟩
    · exact hg.closed x y hx hy
    · exact Nat.not_lt.2 (Nat.le_trans h.extends_.nodes_le hc)
  · intro i h₁ h₂
    rw [hsize] at h₂
    by_cases hi : i = copy
    · exact .inl hi
    · refine (hg.copied i h₁ h₂).imp id ?_
      rintro ⟨o, ho, hof⟩
      refine ⟨o, ho, hof.congr ?_ fun j _ => by rw [node_placed hlt]⟩
      rw [node_placed hlt, childrenOf_placed_of_ne (by simpa using hi)]
      rfl

/-- A uses that was copied is put at a new site. -/
theorem pushUses {s : Site} {u : UsesId} (h : Grows style X P d₀ d d₁) (hs : ¬ d.HasSite s)
    (hs₁ : d₁.HasSite s) (h' : Grows style (fun _ => False) P d₀ d₁ d₂)
    (hu : d₁.uses.size ≤ u.index) (hlt : u.index < d₂.uses.size) :
    Grows style X P d₀ d (d₂.pushedUses s u) := by
  have hg : Grows style X P d₀ d d₂ := h.trans h' fun _ h => h.elim
  obtain ⟨hz₁, -, -, hz₄, -⟩ := d₂.sizes_pushedUses s u
  have hs₂ := h'.extends_.hasSite hs₁
  refine ⟨hg.extends_.pushedUses hs hs₂ u, ?_, ?_, ?_, fun a h₁ h₂ => ?_⟩
  · exact hg.sound.pushedUses hs₂ _ h'.new_closed ⟨hlt, Nat.not_lt.2 hu⟩ hlt fun h => h.2 hs₁
  · intro x y hx hy
    rcases (contains_pushedUses hs₂ u).1 hy with hy | ⟨-, rfl⟩
    · exact hg.closed x y hx hy
    · exact Nat.not_lt.2 (Nat.le_trans h.extends_.uses_le hu)
  · intro i h₁ h₂
    rw [hz₁] at h₂
    refine (hg.copied i h₁ h₂).imp id ?_
    rintro ⟨o, ho, hcopy⟩
    refine ⟨o, ho, hcopy.congr ?_ fun c _ => by rw [node_pushedUses]⟩
    rw [node_pushedUses]
    rfl
  · rw [hz₄] at h₂
    rw [augment_pushedUses]
    exact hg.augments a h₁ h₂

/-- A copy that is made is attached to an augmentation in the making. -/
theorem attach {a : AugmentId} {c r : NodeId} {d₃ : Draft} (hd : d.Sound)
    (h : Grows style X P d₀ d d₂) (ha : d.augments.size ≤ a.index)
    (hc : d.nodes.size ≤ c.index) (h' : d₂.Attached (.augment a) c r d₃) :
    Grows style X P d₀ d d₃ := by
  obtain ⟨rfl, hsize⟩ := h'.direct rfl
  refine ⟨h.extends_.attached hd ha hc h', h'.sound, fun x y hx hy => ?_, fun i h₁ h₂ => ?_,
    fun b h₁ h₂ => ?_⟩
  · have hne : x ≠ .site (.node ⟨d₂.nodes.size⟩) := by
      rintro rfl
      exact absurd (hasItem_of_contains hy) (Nat.not_lt.2 (Nat.le_of_eq hsize))
    rcases (h'.contains_iff hne).1 hy with hy | ⟨-, rfl⟩
    · exact h.closed x y hx hy
    · exact Nat.not_lt.2 hc
  · rw [hsize] at h₂
    refine (h.copied i h₁ h₂).imp id ?_
    rintro ⟨o, ho, hcopy⟩
    refine ⟨o, ho, hcopy.congr ?_ fun j hj => ?_⟩
    · rw [h'.node i h₂, h'.children_of_hasSite (t := .node i) h₂ (by simp)]
      rfl
    · rw [h'.node j (h.sound.child_lt (s := .node i) hj)]
      rfl
  · rw [h'.augments_size] at h₂
    rw [h'.augment]
    exact h.augments b h₁ h₂

end Grows

/-! ## The functions -/

/-- With this fuel the nodes of `d₀` that `P` holds of are copied. -/
def CopiesNodes (style : CopyStyle) (P : Item → Prop) (d₀ : Draft) (fuel : Nat) : Prop :=
  ∀ source d, d₀.Extends d → d.Sound → P (.site (.node source)) →
    Nests d₀.Contains fuel (.site (.node source)) →
    Ends (copyNodeUpTo style fuel source) d (fun c d' => Grows style (fun _ => False) P d₀ d d' ∧
      c = ⟨d.nodes.size⟩ ∧ c.index < d'.nodes.size ∧ (d'.node c).parent = none ∧
      (d'.node c).origin = some source) fun _ _ => False

/-- With this fuel the uses of `d₀` that `P` holds of are copied. -/
def CopiesUses (style : CopyStyle) (P : Item → Prop) (d₀ : Draft) (fuel : Nat) : Prop :=
  ∀ source d, d₀.Extends d → d.Sound → P (.uses source) →
    Nests d₀.Contains fuel (.uses source) →
    Ends (copyUsesUpTo style fuel source) d (fun u d' => Grows style (fun _ => False) P d₀ d d' ∧
      d.uses.size ≤ u.index ∧ u.index < d'.uses.size) fun _ _ => False

/-- With this fuel the augmentations of `d₀` that `P` holds of are copied. -/
def CopiesAugments (style : CopyStyle) (P : Item → Prop) (d₀ : Draft) (fuel : Nat) : Prop :=
  ∀ source d, d₀.Extends d → d.Sound → P (.site (.augment source)) →
    Nests d₀.Contains fuel (.site (.augment source)) →
    Ends (copyAugmentUpTo style fuel source) d (fun a d' => Grows style (fun _ => False) P d₀ d d' ∧
      d.augments.size ≤ a.index ∧ a.index < d'.augments.size) fun _ _ => False

section

variable (hP : ∀ x y, P x → d₀.Contains y x → P y) (hhas : ∀ x, P x → d₀.HasItem x)

/-- Copied uses are put at a new site, one after the other. -/
theorem CopiesUses.ends_forM {fuel : Nat} (hcopy : CopiesUses style P d₀ fuel) {s : Site}
    {l : List UsesId} (hl : ∀ u ∈ l, P (.uses u) ∧ Nests d₀.Contains fuel (.uses u))
    (he : d₀.Extends d) (hs : ¬ d.HasSite s) (hs₁ : d₁.HasSite s) (hg : Grows style X P d₀ d d₁) :
    Ends (l.forM fun u => do pushUses s (← copyUsesUpTo style fuel u)) d₁
      (fun _ d₂ => Grows style X P d₀ d d₂ ∧ d₂.HasSite s ∧ d₁.nodes.size ≤ d₂.nodes.size ∧
        ∀ j, j.index < d₁.nodes.size → d₂.node j = { d₁.node j with uses := (d₂.node j).uses })
      fun _ _ => False := by
  refine Edit.ends_forM (I := fun _ d₂ => Grows style X P d₀ d d₂ ∧ d₂.HasSite s ∧
    d₁.nodes.size ≤ d₂.nodes.size ∧
    ∀ j, j.index < d₁.nodes.size → d₂.node j = { d₁.node j with uses := (d₂.node j).uses }) l
    ⟨hg, hs₁, Nat.le_refl _, fun _ _ => rfl⟩ ?_
  rintro pre u post d₂ hl' ⟨hg₂, hs₂, hle, hnode⟩
  obtain ⟨hu, hfuel⟩ := hl u (by rw [hl']; simp)
  rw [ends_bind]
  refine (hcopy u d₂ (he.trans hg₂.extends_) hg₂.sound hu hfuel).mono ?_ fun _ _ hE => hE
  rintro v d₃ ⟨hg₃, hv, hlt⟩
  rw [ends_pushUses hg₃.sound.unfrozen]
  refine ⟨hg₂.pushUses hs hs₂ hg₃ hv hlt, ?_, ?_, fun j hj => ?_⟩
  · have hs₃ := hg₃.extends_.hasSite hs₂
    obtain ⟨h₁, h₂, -, h₄, h₅⟩ := d₃.sizes_pushedUses s v
    cases s with
    | module i => rwa [HasSite, h₅]
    | node i => rwa [HasSite, h₁]
    | grouping i => rwa [HasSite, h₂]
    | augment i => rwa [HasSite, h₄]
  · rw [(d₃.sizes_pushedUses s v).1]
    exact Nat.le_trans hle hg₃.extends_.nodes_le
  · have hj₃ := hg₃.extends_.node j (Nat.lt_of_lt_of_le hj hle)
    rw [node_pushedUses, hj₃, hnode j hj]

/-- Copied nodes are hung into a copy in the making, one after the other. -/
theorem CopiesNodes.ends_forM {fuel : Nat} (hcopy : CopiesNodes style P d₀ fuel) {source : NodeId}
    (hl : ∀ x ∈ (d₀.node source).children,
      P (.site (.node x)) ∧ Nests d₀.Contains fuel (.site (.node x)))
    (he : d₀.Extends d) (hd : d.Sound) :
    Ends ((d₀.node source).children.forM fun child => do
        let c ← copyNodeUpTo style fuel child
        editChildren (.node ⟨d.nodes.size⟩) (· ++ [c])
        editNode c fun r => { r with parent := some (.node ⟨d.nodes.size⟩) })
      (d.withNode (style.node source (d₀.node source)))
      (fun _ d₁ => Grows style (· = ⟨d.nodes.size⟩) P d₀ d d₁ ∧ d.nodes.size < d₁.nodes.size ∧
        CopyOf style d₀ d₁ source ⟨d.nodes.size⟩ ∧ (d₁.node ⟨d.nodes.size⟩).parent = none)
      fun _ _ => False := by
  have hself : (d.withNode (style.node source (d₀.node source))).node ⟨d.nodes.size⟩ =
      style.node source (d₀.node source) := by
    rw [node_withNode_self]
  refine Edit.ends_forM (I := fun pre d₁ => Grows style (· = ⟨d.nodes.size⟩) P d₀ d d₁ ∧
    d.nodes.size < d₁.nodes.size ∧ CopyUpTo style d₀ d₁ source ⟨d.nodes.size⟩ pre ∧
    (d₁.node ⟨d.nodes.size⟩).parent = none) _ ⟨.withNode hd rfl rfl rfl, ?_, ⟨?_, ?_⟩, ?_⟩ ?_
  · exact Shelf.lt_size_push _ _
  · rw [hself]
    rfl
  · rw [hself]
    rfl
  · rw [hself]
    rfl
  rintro pre x post d₁ hpre ⟨hg₁, hlt₁, hof, hparent⟩
  obtain ⟨hx, hfuel⟩ := hl x (by rw [hpre]; simp)
  rw [ends_bind]
  refine (hcopy x d₁ (he.trans hg₁.extends_) hg₁.sound hx hfuel).mono ?_ fun _ _ hE => hE
  rintro c d₂ ⟨hg₂, rfl, hlt, hnone, horigin⟩
  rw [ends_hang hg₂.sound.unfrozen]
  have hnode := hg₂.extends_.node ⟨d.nodes.size⟩ hlt₁
  have hne : (⟨d.nodes.size⟩ : NodeId) ≠ ⟨d₁.nodes.size⟩ := by
    simpa using Nat.ne_of_lt hlt₁
  have hchildren : ((d₂.placed (.node ⟨d.nodes.size⟩) ⟨d₁.nodes.size⟩).node ⟨d.nodes.size⟩).children =
      (d₁.node ⟨d.nodes.size⟩).children ++ [⟨d₁.nodes.size⟩] := by
    rw [← hnode]
    exact childrenOf_placed_self (s := .node ⟨d.nodes.size⟩)
      (Nat.lt_of_lt_of_le hlt₁ hg₂.extends_.nodes_le)
  refine ⟨hg₁.hang (Nat.le_refl _) hlt₁ hg₂ (Nat.le_refl _) hlt hnone, ?_, ⟨?_, ?_⟩, ?_⟩
  · rw [placed, mapNode, Shelf.size_update, (sizes_mapChildren _ _).1]
    exact Nat.lt_of_lt_of_le hlt₁ hg₂.extends_.nodes_le
  · rw [node_placed hlt, if_neg hne, hnode]
    generalize (d₂.placed _ _).childrenOf _ = l
    rw [hof.node]
    rfl
  · rw [hchildren, List.map_append, List.map_append, ← hof.children]
    congr 1
    · refine List.map_congr_left fun j hj => ?_
      have hj' : j ∈ d₁.childrenOf (.node ⟨d.nodes.size⟩) := hj
      rw [node_placed hlt, hg₂.extends_.node j (hg₁.sound.child_lt hj')]
    · rw [List.map_singleton, node_placed hlt]
      exact congrArg (fun o => [o]) horigin
  · rw [node_placed hlt, if_neg hne, hnode]
    exact hparent

include hP hhas

theorem CopiesNodes.succ {fuel : Nat} (hn : CopiesNodes style P d₀ fuel)
    (hu : CopiesUses style P d₀ fuel) : CopiesNodes style P d₀ (fuel + 1) := by
  intro source d he hd hsource hfuel
  rw [copyNodeUpTo, ends_bind, ends_get]
  dsimp only
  rw [he.node source (hhas _ hsource), ends_bind, ends_addNode, ends_bind]
  refine (hn.ends_forM (fun x hx => ⟨?_, ?_⟩) he hd).mono ?_ fun _ _ hE => hE
  · exact hP _ _ hsource (contains_site.2 (.inl ⟨x, hx, rfl⟩))
  · exact hfuel.down (contains_site.2 (.inl ⟨x, hx, rfl⟩))
  rintro - d₁ ⟨hg₁, hlt₁, hof, hparent⟩
  rw [ends_bind]
  refine (hu.ends_forM (s := .node ⟨d.nodes.size⟩) (fun u hu => ⟨?_, ?_⟩) he (Nat.lt_irrefl _)
    hlt₁ hg₁).mono ?_ fun _ _ hE => hE
  · exact hP _ _ hsource (contains_site.2 (.inr ⟨u, hu, rfl⟩))
  · exact hfuel.down (contains_site.2 (.inr ⟨u, hu, rfl⟩))
  rintro - d₂ ⟨hg₂, hlt₂, hle, hnode⟩
  rw [ends_pure]
  have hof₂ : CopyOf style d₀ d₂ source ⟨d.nodes.size⟩ := by
    refine hof.congr (by rw [hnode ⟨d.nodes.size⟩ hlt₁]; rfl) fun c hc => ?_
    have hc' : c ∈ d₁.childrenOf (.node ⟨d.nodes.size⟩) := hc
    rw [hnode c (hg₁.sound.child_lt hc')]
  refine ⟨⟨hg₂.extends_, hg₂.sound, hg₂.closed, fun i h₁ h₂ => .inr ?_, hg₂.augments⟩, rfl, hlt₂, ?_,
    hof₂.origin⟩
  · rcases hg₂.copied i h₁ h₂ with rfl | h
    · exact ⟨source, hsource, hof₂⟩
    · exact h
  · rw [hnode ⟨d.nodes.size⟩ hlt₁]
    exact hparent

theorem CopiesUses.succ {fuel : Nat} (ha : CopiesAugments style P d₀ fuel) :
    CopiesUses style P d₀ (fuel + 1) := by
  intro source d he hd hsource hfuel
  rw [copyUsesUpTo, ends_bind, ends_get]
  dsimp only
  rw [he.usesOf source (hhas _ hsource), ends_bind]
  refine (ends_mapM (I := fun _ rs d₁ => Grows style (fun _ => False) P d₀ d d₁ ∧
    ∀ a ∈ rs, d.augments.size ≤ a.index ∧ a.index < d₁.augments.size) _
    ⟨.refl hd, by simp⟩ ?_).mono ?_ fun _ _ hE => hE
  · rintro pre a post rs d₁ hl ⟨hg₁, hrs⟩
    have hmem : a ∈ (d₀.usesOf source).augmentations := by rw [hl]; simp
    have hin := contains_uses.2 ⟨a, hmem, rfl⟩
    refine (ha a d₁ (he.trans hg₁.extends_) hg₁.sound (hP _ _ hsource hin) (hfuel.down hin)).mono ?_
      fun _ _ hE => hE
    rintro b d₂ ⟨hg₂, hb, hlt⟩
    refine ⟨hg₁.trans hg₂ fun _ h => h, fun c hc => ?_⟩
    rcases List.mem_append.1 hc with hc | hc
    · exact ⟨(hrs c hc).1, Nat.lt_of_lt_of_le (hrs c hc).2 hg₂.extends_.augments_le⟩
    · rw [List.mem_singleton.1 hc]
      exact ⟨Nat.le_trans hg₁.extends_.augments_le hb, hlt⟩
  · rintro rs d₁ ⟨hg₁, hrs⟩
    rw [ends_addUses]
    refine ⟨hg₁.withUses hrs, hg₁.extends_.uses_le, ?_⟩
    exact Shelf.lt_size_push _ _

theorem CopiesAugments.succ {fuel : Nat} (hn : CopiesNodes style P d₀ fuel)
    (hu : CopiesUses style P d₀ fuel) : CopiesAugments style P d₀ (fuel + 1) := by
  intro source d he hd hsource hfuel
  rw [copyAugmentUpTo, ends_bind, ends_get]
  dsimp only
  rw [he.augment source (hhas _ hsource), ends_bind, ends_addAugment, ends_bind]
  refine (ends_forM (I := fun _ d₁ => Grows style (fun _ => False) P d₀ d d₁ ∧
    d.augments.size < d₁.augments.size) _ ⟨.withAugment hd rfl rfl hsource rfl, ?_⟩ ?_).mono ?_
    fun _ _ hE => hE
  · exact Shelf.lt_size_push _ _
  · rintro pre x post d₁ hl ⟨hg₁, hlt₁⟩
    have hmem : x ∈ (d₀.augment source).children := by rw [hl]; simp
    rw [ends_bind]
    have hin : d₀.Contains _ (.site (.augment source)) := contains_site.2 (.inl ⟨x, hmem, rfl⟩)
    refine (hn x d₁ (he.trans hg₁.extends_) hg₁.sound (hP _ _ hsource hin) (hfuel.down hin)).mono ?_
      fun _ _ hE => hE
    rintro c d₂ ⟨hg₂, rfl, hlt, hnone, -⟩
    rw [ends_discard]
    have hs₂ : d₂.HasSite (.augment ⟨d.augments.size⟩) :=
      Nat.lt_of_lt_of_le hlt₁ hg₂.extends_.augments_le
    refine (ends_attach hg₂.sound hs₂ (hg₂.loose (Nat.le_refl _) hlt hnone) (fun h => h.2 hlt₁)
      fun _ hx => hx.1).mono ?_ ?_
    · rintro r d₃ ⟨-, hatt⟩
      refine ⟨(hg₁.trans hg₂ fun _ h => h).attach hd (Nat.le_refl _) hg₁.extends_.nodes_le hatt, ?_⟩
      rw [hatt.augments_size]
      exact hs₂
    · rintro f d₃ ⟨hacc, -⟩
      cases hacc
  · rintro - d₁ ⟨hg₁, hlt₁⟩
    rw [ends_bind]
    refine (hu.ends_forM (s := .augment ⟨d.augments.size⟩) (fun u hu => ⟨?_, ?_⟩) he
      (Nat.lt_irrefl _) hlt₁ hg₁).mono ?_ fun _ _ hE => hE
    · exact hP _ _ hsource (contains_site.2 (.inr ⟨u, hu, rfl⟩))
    · exact hfuel.down (contains_site.2 (.inr ⟨u, hu, rfl⟩))
    rintro - d₂ ⟨hg₂, hlt₂, -, -⟩
    exact ⟨hg₂, Nat.le_refl _, hlt₂⟩

theorem copies (fuel : Nat) :
    CopiesNodes style P d₀ fuel ∧ CopiesUses style P d₀ fuel ∧ CopiesAugments style P d₀ fuel := by
  induction fuel with
  | zero =>
    refine ⟨?_, ?_, ?_⟩
    all_goals
      intro _ _ _ _ _ hfuel
      cases hfuel
  | succ fuel ih =>
    obtain ⟨hn, hu, ha⟩ := ih
    exact ⟨hn.succ hP hhas hu, .succ hP hhas ha, .succ hP hhas hn hu⟩

end

/-- What is reached from `x` by going down. -/
def Inside (d : Draft) (x y : Item) : Prop := Relation.ReflTransGen (fun x y => d.Contains y x) x y

theorem Inside.contains {x y z : Item} (h : d.Inside x y) (hz : d.Contains z y) : d.Inside x z :=
  h.tail hz

theorem Sound.hasItem_of_inside (hd : d.Sound) {x y : Item} (h : d.Inside x y) (hx : d.HasItem x) :
    d.HasItem y := by
  cases h with
  | refl => exact hx
  | tail _ hz => exact hd.hasItem_of_contains hz

/-- Copying a node. -/
theorem ends_copyNode (hd : d.Sound) {source : NodeId} (h : source.index < d.nodes.size) :
    Ends (copyNode style source) d (fun c d' =>
      Grows style (fun _ => False) (d.Inside (.site (.node source))) d d d' ∧
      c = ⟨d.nodes.size⟩ ∧ c.index < d'.nodes.size ∧ (d'.node c).parent = none ∧
      (d'.node c).origin = some source) fun _ _ => False := by
  rw [copyNode, ends_bind, ends_get]
  have hhas : ∀ x, d.Inside (.site (.node source)) x → d.HasItem x := fun x hx =>
    hd.hasItem_of_inside hx h
  exact (copies (fun _ _ => Inside.contains) hhas d.size).1 source d (.refl d) hd .refl (hd.nests_size h)

/-- Copying a uses. -/
theorem ends_copyUses (hd : d.Sound) {source : UsesId} (h : source.index < d.uses.size) :
    Ends (copyUses style source) d (fun u d' =>
      Grows style (fun _ => False) (d.Inside (.uses source)) d d d' ∧
      d.uses.size ≤ u.index ∧ u.index < d'.uses.size) fun _ _ => False := by
  rw [copyUses, ends_bind, ends_get]
  have hhas : ∀ x, d.Inside (.uses source) x → d.HasItem x := fun x hx => hd.hasItem_of_inside hx h
  exact (copies (fun _ _ => Inside.contains) hhas d.size).2.1 source d (.refl d) hd .refl (hd.nests_size h)

end Draft

end YangSchema
