import Mathlib.Algebra.BigOperators.Group.Multiset.Basic
import Mathlib.Tactic.Abel
import YangSchema.Draft.Edit
import YangSchema.Proofs.Draft.Update

/-!
# What a module lists

A module lists what the statements at the top of its sources define.  `Draft.entries` reads this as a
multiset: how often counts, the order does not.  `Draft.Gains` says how much more every module lists
after an edit.  An edit at a module adds one entry there, and an edit anywhere below a module adds none.
-/

namespace YangSchema

open Draft Edit

/-! ## Entries -/

/-- One thing that a module lists. -/
inductive Entry where
  | child (name : QName)
  | grouping (name : QName)
  | typedef (name : QName)
  | uses (grouping : SchemaPath)
  | extension (name : QName)
  | feature (name : QName)
  | identity (name : QName)
  | augmentation (target : SchemaPath)
  | deviation (target : SchemaPath)
  | unknown (statement : UnknownStatement)

namespace Draft

/-- What the record of a module lists. -/
def entriesOf (d : Draft) (r : ModuleDraft) : Multiset Entry :=
  ↑(r.children.map fun i => Entry.child (d.node i).name) +
  ↑(r.groupings.map fun g => Entry.grouping (d.grouping g).facts.name) +
  ↑(r.uses.map fun u => Entry.uses (d.usesOf u).facts.grouping) +
  ↑(r.augmentations.map fun a => Entry.augmentation (d.augment a).facts.target) +
  ↑(r.facts.typedefs.map fun t => Entry.typedef t.name) +
  ↑(r.facts.extensions.map fun e => Entry.extension e.name) +
  ↑(r.facts.features.map fun f => Entry.feature f.name) +
  ↑(r.facts.identities.map fun i => Entry.identity i.name) +
  ↑(r.facts.deviations.map fun v => Entry.deviation v.target) +
  ↑(r.facts.unknown.map Entry.unknown)

/-- What is listed last is one entry more. -/
theorem coe_map_concat {α : Type} (f : α → Entry) (l : List α) (x : α) :
    (↑((l ++ [x]).map f) : Multiset Entry) = ↑(l.map f) + {f x} := by
  rw [List.map_append, ← Multiset.coe_add]
  rfl

/-- What a module lists. -/
def entries (d : Draft) (i : ModuleId) : Multiset Entry := d.entriesOf (d.module i)

variable {d d' d'' : Draft} {i : ModuleId} {r : ModuleDraft} {x : Multiset Entry}

/-! ## Names stay -/

/-- What was there is still there, under the same name. -/
structure KeepsNames (d d' : Draft) : Prop where
  nodes_le : d.nodes.size ≤ d'.nodes.size
  groupings_le : d.groupings.size ≤ d'.groupings.size
  uses_le : d.uses.size ≤ d'.uses.size
  augments_le : d.augments.size ≤ d'.augments.size
  node : ∀ i : NodeId, i.index < d.nodes.size → (d'.node i).name = (d.node i).name
  grouping : ∀ g : GroupingId, g.index < d.groupings.size →
    (d'.grouping g).facts.name = (d.grouping g).facts.name
  uses : ∀ u : UsesId, u.index < d.uses.size →
    (d'.usesOf u).facts.grouping = (d.usesOf u).facts.grouping
  augment : ∀ a : AugmentId, a.index < d.augments.size →
    (d'.augment a).facts.target = (d.augment a).facts.target

/-- All that the record of a module lists is there. -/
structure Covers (d : Draft) (r : ModuleDraft) : Prop where
  children : ∀ c ∈ r.children, c.index < d.nodes.size
  groupings : ∀ g ∈ r.groupings, g.index < d.groupings.size
  uses : ∀ u ∈ r.uses, u.index < d.uses.size
  augmentations : ∀ a ∈ r.augmentations, a.index < d.augments.size

namespace KeepsNames

protected theorem refl (d : Draft) : d.KeepsNames d :=
  ⟨Nat.le_refl _, Nat.le_refl _, Nat.le_refl _, Nat.le_refl _, fun _ _ => rfl, fun _ _ => rfl,
    fun _ _ => rfl, fun _ _ => rfl⟩

theorem withNode (d : Draft) (r : NodeDraft) : d.KeepsNames (d.withNode r) :=
  { KeepsNames.refl d with
    nodes_le := Shelf.size_le_size_push _ _
    node := fun i hi => by rw [node_withNode, if_neg (Nat.ne_of_lt hi)] }

theorem withGrouping (d : Draft) (r : GroupingDraft) : d.KeepsNames (d.withGrouping r) :=
  { KeepsNames.refl d with
    groupings_le := Shelf.size_le_size_push _ _
    grouping := fun g hg => by rw [grouping_withGrouping, if_neg (Nat.ne_of_lt hg)] }

theorem withUses (d : Draft) (r : UsesDraft) : d.KeepsNames (d.withUses r) :=
  { KeepsNames.refl d with
    uses_le := Shelf.size_le_size_push _ _
    uses := fun u hu => by rw [usesOf_withUses, if_neg (Nat.ne_of_lt hu)] }

theorem withAugment (d : Draft) (r : AugmentDraft) : d.KeepsNames (d.withAugment r) :=
  { KeepsNames.refl d with
    augments_le := Shelf.size_le_size_push _ _
    augment := fun a ha => by rw [augment_withAugment, if_neg (Nat.ne_of_lt ha)] }

theorem mapNode {f : NodeDraft → NodeDraft} (hf : ∀ r, (f r).name = r.name) (i : NodeId) :
    d.KeepsNames (d.mapNode i f) :=
  { KeepsNames.refl d with
    nodes_le := (Shelf.size_update _ _ _).ge
    node := fun j _ => by
      rw [node_mapNode]
      split
      · exact hf _
      · rfl }

theorem mapGrouping {f : GroupingDraft → GroupingDraft}
    (hf : ∀ r, (f r).facts.name = r.facts.name) (i : GroupingId) :
    d.KeepsNames (d.mapGrouping i f) :=
  { KeepsNames.refl d with
    groupings_le := (Shelf.size_update _ _ _).ge
    grouping := fun j _ => by
      rw [grouping_mapGrouping]
      split
      · exact hf _
      · rfl }

theorem mapUses {f : UsesDraft → UsesDraft} (hf : ∀ r, (f r).facts.grouping = r.facts.grouping)
    (i : UsesId) : d.KeepsNames (d.mapUses i f) :=
  { KeepsNames.refl d with
    uses_le := (Shelf.size_update _ _ _).ge
    uses := fun j _ => by
      rw [usesOf_mapUses]
      split
      · exact hf _
      · rfl }

theorem mapAugment {f : AugmentDraft → AugmentDraft}
    (hf : ∀ r, (f r).facts.target = r.facts.target) (i : AugmentId) :
    d.KeepsNames (d.mapAugment i f) :=
  { KeepsNames.refl d with
    augments_le := (Shelf.size_update _ _ _).ge
    augment := fun j _ => by
      rw [augment_mapAugment]
      split
      · exact hf _
      · rfl }

variable (h : d.KeepsNames d') (hr : d.Covers r)

include h hr

theorem covers : d'.Covers r where
  children c hc := (hr.children c hc).trans_le h.nodes_le
  groupings g hg := (hr.groupings g hg).trans_le h.groupings_le
  uses u hu := (hr.uses u hu).trans_le h.uses_le
  augmentations a ha := (hr.augmentations a ha).trans_le h.augments_le

theorem entriesOf : d'.entriesOf r = d.entriesOf r := by
  have h₁ : r.children.map (fun i => Entry.child (d'.node i).name) =
      r.children.map fun i => Entry.child (d.node i).name :=
    List.map_congr_left fun c hc => congrArg _ (h.node c (hr.children c hc))
  have h₂ : r.groupings.map (fun g => Entry.grouping (d'.grouping g).facts.name) =
      r.groupings.map fun g => Entry.grouping (d.grouping g).facts.name :=
    List.map_congr_left fun g hg => congrArg _ (h.grouping g (hr.groupings g hg))
  have h₃ : r.uses.map (fun u => Entry.uses (d'.usesOf u).facts.grouping) =
      r.uses.map fun u => Entry.uses (d.usesOf u).facts.grouping :=
    List.map_congr_left fun u hu => congrArg _ (h.uses u (hr.uses u hu))
  have h₄ : r.augmentations.map (fun a => Entry.augmentation (d'.augment a).facts.target) =
      r.augmentations.map fun a => Entry.augmentation (d.augment a).facts.target :=
    List.map_congr_left fun a ha => congrArg _ (h.augment a (hr.augmentations a ha))
  unfold Draft.entriesOf
  rw [h₁, h₂, h₃, h₄]

end KeepsNames

/-! ## Listing more -/

/-- The module is there, and lists exactly `x`. -/
structure Tallies (d : Draft) (i : ModuleId) (x : Multiset Entry) : Prop where
  lt : i.index < d.modules.size
  covers : d.Covers (d.module i)
  entries : d.entries i = x

/-- Every module `i` lists `g i` more. -/
def Gains (g : ModuleId → Multiset Entry) (d d' : Draft) : Prop :=
  ∀ i x, d.Tallies i x → d'.Tallies i (x + g i)

theorem Gains.trans {g g' : ModuleId → Multiset Entry} (h : Gains g d d') (h' : Gains g' d' d'') :
    Gains (g + g') d d'' := by
  intro i x hx
  have := h' i _ (h i x hx)
  rwa [add_assoc] at this

theorem Gains.trans_quiet {g : ModuleId → Multiset Entry} (h : Gains g d d') (h' : Gains 0 d' d'') :
    Gains g d d'' := by
  have := h.trans h'
  rwa [add_zero] at this

theorem Gains.quiet_trans {g : ModuleId → Multiset Entry} (h : Gains 0 d d') (h' : Gains g d' d'') :
    Gains g d d'' := by
  have := h.trans h'
  rwa [zero_add] at this

/-- Nothing more is listed where no module is changed and the names stay. -/
theorem KeepsNames.gains (h : d.KeepsNames d')
    (hm : ∀ i : ModuleId, i.index < d.modules.size → d'.module i = d.module i)
    (hle : d.modules.size ≤ d'.modules.size) : Gains 0 d d' := by
  intro i x hx
  refine ⟨hx.lt.trans_le hle, ?_, ?_⟩
  · rw [hm i hx.lt]
    exact h.covers hx.covers
  · unfold entries
    rw [hm i hx.lt, h.entriesOf hx.covers]
    exact hx.entries.trans (add_zero x).symm

theorem Gains.refl (d : Draft) : Gains 0 d d :=
  (KeepsNames.refl d).gains (fun _ _ => rfl) (Nat.le_refl _)

end Draft

/-- What the modules list more when `x` is put at the site. -/
def Site.gains : Site → Multiset Entry → ModuleId → Multiset Entry
  | .module m, x, i => if i = m then x else 0
  | _, _, _ => 0

@[simp] theorem Site.gains_zero (s : Site) : s.gains 0 = 0 := by
  funext i
  cases s <;> simp [gains]

theorem Site.gains_add (s : Site) (x y : Multiset Entry) : s.gains (x + y) = s.gains x + s.gains y := by
  funext i
  cases s with
  | module m =>
    show (if i = m then x + y else 0) = (if i = m then x else 0) + if i = m then y else 0
    split <;> simp
  | _ => rfl

namespace Draft

variable {d : Draft} {s : Site}

/-- A change of a module's record alone. -/
theorem KeepsNames.mapModule (f : ModuleDraft → ModuleDraft) (m : ModuleId) :
    d.KeepsNames (d.mapModule m f) := { KeepsNames.refl d with }

theorem gains_mapModule {f : ModuleDraft → ModuleDraft} {x : Multiset Entry}
    (hcovers : ∀ r, d.Covers r → d.Covers (f r)) (hf : ∀ r, d.entriesOf (f r) = d.entriesOf r + x)
    (m : ModuleId) : d.Gains ((Site.module m).gains x) (d.mapModule m f) := by
  intro i y hy
  refine ⟨?_, (KeepsNames.mapModule f m).covers ?_, ?_⟩
  · show _ < (Shelf.update _ _ _).size
    rw [Shelf.size_update]
    exact hy.lt
  · rw [module_mapModule]
    split
    · exact hcovers _ hy.covers
    · exact hy.covers
  · show d.entriesOf ((d.mapModule m f).module i) = y + if i = m then x else 0
    rw [module_mapModule, ← hy.entries]
    by_cases him : i = m
    · rw [if_pos ⟨him.symm, hy.lt⟩, if_pos him, hf]
      rfl
    · rw [if_neg fun h => him h.1.symm, if_neg him, add_zero]
      rfl

/-! ## Edits -/

/-- An edit that succeeds has found its record open. -/
theorem ends_requireOpen_modify {Q : Unit → Draft → Prop} {frozen : Draft → Bool} {id : String}
    {f : Draft → Draft} (h : Q () (f d)) :
    Ends (do requireOpen (frozen (← get)) id; modify f) d Q fun _ _ => True := by
  unfold Ends
  rw [perform_requireOpen_modify]
  cases frozen d
  · exact h
  · trivial

theorem ends_editModule_gains {f : ModuleDraft → ModuleDraft} {x : Multiset Entry}
    (hcovers : ∀ r, d.Covers r → d.Covers (f r)) (hf : ∀ r, d.entriesOf (f r) = d.entriesOf r + x)
    (m : ModuleId) : Ends (editModule m f) d (fun _ d' => d.Gains ((Site.module m).gains x) d')
      fun _ _ => True :=
  ends_requireOpen_modify (gains_mapModule hcovers hf m)

/-- The facts of a module say more. -/
theorem ends_editFacts_gains {f : ModuleFacts → ModuleFacts} {x : Multiset Entry}
    (hf : ∀ r, d.entriesOf { r with facts := f r.facts } = d.entriesOf r + x) (m : ModuleId) :
    Ends (editModule m fun r => { r with facts := f r.facts }) d
      (fun _ d' => d.Gains ((Site.module m).gains x) d') fun _ _ => True :=
  ends_editModule_gains (f := fun r => { r with facts := f r.facts })
    (fun _ hr => ⟨hr.children, hr.groupings, hr.uses, hr.augmentations⟩) hf m

theorem ends_editNode_gains {f : NodeDraft → NodeDraft} (hf : ∀ r, (f r).name = r.name)
    (i : NodeId) : Ends (editNode i f) d (fun _ d' => d.Gains 0 d') fun _ _ => True :=
  ends_requireOpen_modify ((KeepsNames.mapNode hf i).gains (fun _ _ => rfl) (Nat.le_refl _))

theorem ends_editGrouping_gains {f : GroupingDraft → GroupingDraft}
    (hf : ∀ r, (f r).facts.name = r.facts.name) (i : GroupingId) :
    Ends (editGrouping i f) d (fun _ d' => d.Gains 0 d') fun _ _ => True :=
  ends_requireOpen_modify ((KeepsNames.mapGrouping hf i).gains (fun _ _ => rfl) (Nat.le_refl _))

theorem ends_editUses_gains {f : UsesDraft → UsesDraft}
    (hf : ∀ r, (f r).facts.grouping = r.facts.grouping) (i : UsesId) :
    Ends (editUses i f) d (fun _ d' => d.Gains 0 d') fun _ _ => True :=
  ends_requireOpen_modify ((KeepsNames.mapUses hf i).gains (fun _ _ => rfl) (Nat.le_refl _))

theorem ends_editAugment_gains {f : AugmentDraft → AugmentDraft}
    (hf : ∀ r, (f r).facts.target = r.facts.target) (i : AugmentId) :
    Ends (editAugment i f) d (fun _ d' => d.Gains 0 d') fun _ _ => True :=
  ends_requireOpen_modify ((KeepsNames.mapAugment hf i).gains (fun _ _ => rfl) (Nat.le_refl _))

/-! ### Edits at a site -/

theorem ends_pushGrouping_gains {g : GroupingId} (hg : g.index < d.groupings.size) :
    Ends (pushGrouping s g) d (fun _ d' =>
      d.Gains (s.gains {.grouping (d.grouping g).facts.name}) d') fun _ _ => True := by
  cases s with
  | module i =>
    refine ends_editModule_gains (fun r hr => ?_) (fun r => ?_) i
    · exact { hr with groupings := by simpa [or_imp, forall_and, hg] using hr.groupings }
    · simp only [entriesOf, coe_map_concat]
      abel
  | node i => exact ends_editNode_gains (by intro; rfl) i
  | grouping i => exact ends_editGrouping_gains (by intro; rfl) i
  | augment i => exact (ends_throw _).2 trivial

theorem ends_pushTypedef_gains (t : Typedef) : Ends (pushTypedef s t) d (fun _ d' =>
    d.Gains (s.gains {.typedef t.name}) d') fun _ _ => True := by
  cases s with
  | module i =>
    refine ends_editFacts_gains (f := fun r => { r with typedefs := r.typedefs ++ [t] }) (fun r => ?_) i
    simp only [entriesOf, coe_map_concat]
    abel
  | node i => exact ends_editNode_gains (by intro; rfl) i
  | grouping i => exact ends_editGrouping_gains (by intro; rfl) i
  | augment i => exact (ends_throw _).2 trivial

theorem ends_pushUnknown_gains (u : UnknownStatement) : Ends (pushUnknown s [u]) d (fun _ d' =>
    d.Gains (s.gains {.unknown u}) d') fun _ _ => True := by
  cases s with
  | module i =>
    refine ends_editFacts_gains (f := fun r => { r with unknown := r.unknown ++ [u] }) (fun r => ?_) i
    simp only [entriesOf, coe_map_concat]
    abel
  | node i => exact ends_editNode_gains (by intro; rfl) i
  | grouping i => exact ends_editGrouping_gains (by intro; rfl) i
  | augment i => exact ends_editAugment_gains (by intro; rfl) i

theorem ends_pushUses_gains {u : UsesId} (hu : u.index < d.uses.size) :
    Ends (pushUses s u) d (fun _ d' => d.Gains (s.gains {.uses (d.usesOf u).facts.grouping}) d')
      fun _ _ => True := by
  cases s with
  | module i =>
    refine ends_editModule_gains (fun r hr => ?_) (fun r => ?_) i
    · exact { hr with uses := by simpa [or_imp, forall_and, hu] using hr.uses }
    · simp only [entriesOf, coe_map_concat]
      abel
  | node i => exact ends_editNode_gains (by intro; rfl) i
  | grouping i => exact ends_editGrouping_gains (by intro; rfl) i
  | augment i => exact ends_editAugment_gains (by intro; rfl) i

theorem ends_editChildren_gains {c : NodeId} (hc : ∀ m, s = .module m → c.index < d.nodes.size) :
    Ends (editChildren s (· ++ [c])) d (fun _ d' => d.Gains (s.gains {.child (d.node c).name}) d')
      fun _ _ => True := by
  cases s with
  | module i =>
    refine ends_editModule_gains (fun r hr => ?_) (fun r => ?_) i
    · exact { hr with children := by simpa [or_imp, forall_and, hc i rfl] using hr.children }
    · simp only [entriesOf, coe_map_concat]
      abel
  | node i => exact ends_editNode_gains (by intro; rfl) i
  | grouping i => exact ends_editGrouping_gains (by intro; rfl) i
  | augment i => exact ends_editAugment_gains (by intro; rfl) i

/-! ### Attaching -/

/-- Paths are no entries. -/
theorem ends_repath_gains (fuel : Nat) : ∀ (i : NodeId) (above : SchemaPath) (d : Draft),
    Ends (repath fuel i above) d (fun _ d' => d.Gains 0 d') fun _ _ => True := by
  induction fuel with
  | zero => exact fun _ _ _ => (ends_throw _).2 trivial
  | succ fuel ih =>
    intro i above d
    rw [repath, ends_bind]
    refine (ends_editNode_gains (by intro; rfl) i).mono (fun _ d₁ h₁ => ?_) fun _ _ => id
    rw [ends_bind, ends_get]
    refine ends_forM (I := fun _ d' => d.Gains 0 d') _ h₁ fun pre c post d₂ _ h₂ => ?_
    exact (ih c _ d₂).mono (fun _ d₃ h₃ => h₂.trans h₃) fun _ _ => id

theorem ends_place_gains {c : NodeId} (hc : ∀ m, s = .module m → c.index < d.nodes.size) :
    Ends (place s c) d (fun _ d' => d.Gains (s.gains {.child (d.node c).name}) d')
      fun _ _ => True := by
  unfold place
  rw [ends_bind, ends_get, ends_bind]
  refine (ends_editChildren_gains hc).mono (fun _ d₁ h₁ => ?_) fun _ _ => id
  rw [ends_bind]
  refine (ends_editNode_gains (by intro; rfl) c).mono (fun _ d₂ h₂ => ?_) fun _ _ => id
  rw [ends_bind, ends_get]
  exact (ends_repath_gains _ c _ d₂).mono (fun _ d₃ h₃ => (h₁.trans_quiet h₂).trans_quiet h₃)
    fun _ _ => id

/-- A module takes the node itself; what happens under a node is no matter of the modules. -/
theorem ends_attach_gains {c : NodeId} (hc : c.index < d.nodes.size) :
    Ends (attach s c) d (fun _ d' => d.Gains (s.gains {.child (d.node c).name}) d')
      fun _ _ => True := by
  have hplace : Ends (place s c >>= fun _ => pure c) d
      (fun _ d' => d.Gains (s.gains {.child (d.node c).name}) d') fun _ _ => True := by
    rw [ends_bind]
    exact ends_place_gains fun _ _ => hc
  unfold attach
  rw [ends_bind, ends_get]
  cases s with
  | node p =>
    have hinner : ∀ (i j : NodeId) (d₁ : Draft), d.Gains 0 d₁ →
        Ends (place (.node i) j) d₁ (fun _ d' => d.Gains 0 d') fun _ _ => True := fun i j d₁ h₁ =>
      (ends_place_gains (by simp)).mono (fun _ d₂ h₂ => h₁.trans_quiet h₂) fun _ _ => id
    dsimp only
    split
    · exact (ends_throw _).2 trivial
    split
    · -- a shorthand case is put around the node
      rw [ends_bind]
      refine (ends_addNode _).2 ?_
      rw [ends_bind]
      refine (hinner p _ _ ?_).mono (fun _ d₂ h₂ => ?_) fun _ _ => id
      · exact (KeepsNames.withNode d _).gains (fun _ _ => rfl) (Nat.le_refl _)
      · rw [ends_bind]
        exact hinner _ c d₂ h₂
    · exact hplace
  | _ => exact hplace

end Draft

end YangSchema
