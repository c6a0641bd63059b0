import YangSchema.Draft.Copy
import YangSchema.Proofs.Draft.Recalling

/-!
# Snapshots outlast every operation

Records are added and edited, nodes are attached, detached and copied: no operation takes a snapshot
away or puts another in its place, whether it succeeds or fails (`Lasting.attach` and its siblings).
-/

namespace YangSchema

namespace Draft

open Edit

variable {d d₁ : Draft} {α β ρ σ : Type}

/-! ## Shelves -/

/-- The places of a shelf stay, and with them the snapshots. -/
structure ShelfLasts (s s' : Shelf ρ σ) : Prop where
  size : s.size ≤ s'.size
  snapshot? : ∀ i v, s.snapshot? i = some v → s'.snapshot? i = some v

namespace ShelfLasts

theorem refl (s : Shelf ρ σ) : ShelfLasts s s := ⟨Nat.le_refl _, fun _ _ h => h⟩

theorem push (s : Shelf ρ σ) (r : ρ) : ShelfLasts s (s.push r) where
  size := by simp
  snapshot? i v h := by rwa [Shelf.snapshot?_push]

theorem update (s : Shelf ρ σ) (i : Nat) (f : ρ → ρ) : ShelfLasts s (s.update i f) where
  size := by simp
  snapshot? j v h := by rwa [Shelf.snapshot?_update]

end ShelfLasts

theorem Lasts.of_shelves (hn : ShelfLasts d.nodes d₁.nodes) (hg : ShelfLasts d.groupings d₁.groupings)
    (hu : ShelfLasts d.uses d₁.uses) (ha : ShelfLasts d.augments d₁.augments)
    (hm : ShelfLasts d.modules d₁.modules) : d.Lasts d₁ where
  hasItem x hx := by
    rcases x with (i | i | i | i) | i
    · exact Nat.lt_of_lt_of_le hx hm.size
    · exact Nat.lt_of_lt_of_le hx hn.size
    · exact Nat.lt_of_lt_of_le hx hg.size
    · exact Nat.lt_of_lt_of_le hx ha.size
    · exact Nat.lt_of_lt_of_le hx hu.size
  taken x v hv := by
    rcases x with (i | i | i | i) | i
    all_goals
      simp only [taken?, Option.map_eq_some_iff] at hv ⊢
      obtain ⟨w, hw, rfl⟩ := hv
    · exact ⟨w, hm.snapshot? _ _ hw, rfl⟩
    · exact ⟨w, hn.snapshot? _ _ hw, rfl⟩
    · exact ⟨w, hg.snapshot? _ _ hw, rfl⟩
    · exact ⟨w, ha.snapshot? _ _ hw, rfl⟩
    · exact ⟨w, hu.snapshot? _ _ hw, rfl⟩

/-! ## Records -/

theorem lasting_modify {f : Draft → Draft} (hf : ∀ d : Draft, d.Lasts (f d)) : Lasting (modify f) := hf

theorem lasting_modifyGet {f : Draft → α × Draft} (hf : ∀ d : Draft, d.Lasts (f d).2) :
    Lasting (modifyGet f) := hf

theorem lasting_requireOpen (frozen : Bool) (id : String) : Lasting (requireOpen frozen id) := by
  unfold requireOpen
  split
  · exact .throw _
  · exact .pure _

/-- A change behind a check. -/
theorem lasting_guarded {frozen : Draft → Bool} {id : String} {f : Draft → Draft}
    (hf : ∀ d : Draft, d.Lasts (f d)) :
    Lasting (do requireOpen (frozen (← get)) id; modify f) :=
  .bind .get fun _ => (lasting_requireOpen _ _).bind fun _ => lasting_modify hf

namespace Lasting

theorem forM {f : α → Edit PUnit} (hf : ∀ x, Lasting (f x)) (l : List α) : Lasting (l.forM f) := by
  induction l with
  | nil => exact pure _
  | cons x l ih =>
    show Lasting (f x >>= fun _ => l.forM f)
    exact (hf x).bind fun _ => ih

theorem discard {e : Edit α} (he : Lasting e) : Lasting (discard e) := he.map

/-! ### Records are added -/

theorem addNode (r : NodeDraft) : Lasting (addNode r) :=
  lasting_modifyGet fun _ => Lasts.of_shelves (.push _ r) (.refl _) (.refl _) (.refl _) (.refl _)

theorem addGrouping (r : GroupingDraft) : Lasting (addGrouping r) :=
  lasting_modifyGet fun _ => Lasts.of_shelves (.refl _) (.push _ r) (.refl _) (.refl _) (.refl _)

theorem addUses (r : UsesDraft) : Lasting (addUses r) :=
  lasting_modifyGet fun _ => Lasts.of_shelves (.refl _) (.refl _) (.push _ r) (.refl _) (.refl _)

theorem addAugment (r : AugmentDraft) : Lasting (addAugment r) :=
  lasting_modifyGet fun _ => Lasts.of_shelves (.refl _) (.refl _) (.refl _) (.push _ r) (.refl _)

theorem addModule (r : ModuleDraft) : Lasting (addModule r) := by
  refine get.bind fun d => ?_
  split
  · exact throw _
  · exact lasting_modifyGet fun _ => Lasts.of_shelves (.refl _) (.refl _) (.refl _) (.refl _) (.push _ r)

/-! ### Records are edited -/

theorem editNode (i : NodeId) (f : NodeDraft → NodeDraft) : Lasting (editNode i f) :=
  lasting_guarded fun _ => .of_shelves (.update _ _ f) (.refl _) (.refl _) (.refl _) (.refl _)

theorem editGrouping (i : GroupingId) (f : GroupingDraft → GroupingDraft) : Lasting (editGrouping i f) :=
  lasting_guarded fun _ => .of_shelves (.refl _) (.update _ _ f) (.refl _) (.refl _) (.refl _)

theorem editUses (i : UsesId) (f : UsesDraft → UsesDraft) : Lasting (editUses i f) :=
  lasting_guarded fun _ => .of_shelves (.refl _) (.refl _) (.update _ _ f) (.refl _) (.refl _)

theorem editAugment (i : AugmentId) (f : AugmentDraft → AugmentDraft) : Lasting (editAugment i f) :=
  lasting_guarded fun _ => .of_shelves (.refl _) (.refl _) (.refl _) (.update _ _ f) (.refl _)

theorem editModule (i : ModuleId) (f : ModuleDraft → ModuleDraft) : Lasting (editModule i f) :=
  lasting_guarded fun _ => .of_shelves (.refl _) (.refl _) (.refl _) (.refl _) (.update _ _ f)

theorem editChildren (s : Site) (f : List NodeId → List NodeId) : Lasting (editChildren s f) := by
  cases s with
  | module i => exact editModule i _
  | node i => exact editNode i _
  | grouping i => exact editGrouping i _
  | augment i => exact editAugment i _

theorem pushUses (s : Site) (u : UsesId) : Lasting (pushUses s u) := by
  cases s with
  | module i => exact editModule i _
  | node i => exact editNode i _
  | grouping i => exact editGrouping i _
  | augment i => exact editAugment i _

theorem pushUnknown (s : Site) (us : List UnknownStatement) : Lasting (pushUnknown s us) := by
  cases s with
  | module i => exact editModule i _
  | node i => exact editNode i _
  | grouping i => exact editGrouping i _
  | augment i => exact editAugment i _

theorem pushGrouping (s : Site) (g : GroupingId) : Lasting (pushGrouping s g) := by
  cases s with
  | module i => exact editModule i _
  | node i => exact editNode i _
  | grouping i => exact editGrouping i _
  | augment i => exact throw _

theorem pushTypedef (s : Site) (t : Typedef) : Lasting (pushTypedef s t) := by
  cases s with
  | module i => exact editModule i _
  | node i => exact editNode i _
  | grouping i => exact editGrouping i _
  | augment i => exact throw _

/-! ### Nodes are moved -/

theorem repath : ∀ (fuel : Nat) (i : NodeId) (above : SchemaPath), Lasting (repath fuel i above)
  | 0, _, _ => throw _
  | fuel + 1, i, _ => (editNode i _).bind fun _ => get.bind fun d =>
      forM (fun c => repath fuel c (d.node i).path) _

theorem place (s : Site) (c : NodeId) : Lasting (place s c) :=
  get.bind fun _ => (editChildren s _).bind fun _ => (editNode c _).bind fun _ => get.bind fun _ =>
    repath _ c _

theorem attach (s : Site) (c : NodeId) : Lasting (attach s c) := by
  have hplace : Lasting (do Draft.place s c; return c) := (place s c).bind fun _ => pure c
  refine get.bind fun d => ?_
  cases s with
  | node p =>
    dsimp only
    split
    · exact throw _
    · split
      · exact (addNode _).bind fun w => (place _ w).bind fun _ => (place _ c).bind fun _ => pure w
      · exact hplace
  | _ => exact hplace

theorem detachUpTo : ∀ (fuel : Nat) (c : NodeId), Lasting (detachUpTo fuel c)
  | 0, _ => pure _
  | fuel + 1, c => by
    rw [Draft.detachUpTo]
    refine get.bind fun d => ?_
    split
    · next s _ =>
      refine (editChildren s _).bind fun _ => (editNode c _).bind fun _ => ?_
      cases s with
      | node p =>
        refine get.bind fun d => ?_
        dsimp only
        split
        · exact detachUpTo fuel p
        · exact pure _
      | _ => exact pure _
    · exact pure _

theorem detach (c : NodeId) : Lasting (detach c) := get.bind fun _ => detachUpTo _ c

end Lasting

/-! ## Copies -/

/-- Copying in so many steps down leaves all snapshots where they are. -/
structure CopyLasts (style : CopyStyle) (fuel : Nat) : Prop where
  node : ∀ i, Lasting (copyNodeUpTo style fuel i)
  uses : ∀ i, Lasting (copyUsesUpTo style fuel i)
  augment : ∀ i, Lasting (copyAugmentUpTo style fuel i)

theorem copyLasts (style : CopyStyle) (fuel : Nat) : CopyLasts style fuel := by
  induction fuel with
  | zero => exact ⟨fun _ => .throw _, fun _ => .throw _, fun _ => .throw _⟩
  | succ fuel ih =>
    have hpush (s : Site) (u : UsesId) : Lasting (do pushUses s (← copyUsesUpTo style fuel u)) :=
      (ih.uses u).bind fun v => .pushUses s v
    refine ⟨fun i => ?_, fun i => ?_, fun i => ?_⟩
    · rw [copyNodeUpTo]
      refine .bind .get fun d => (Lasting.addNode _).bind fun copy => ?_
      refine (Lasting.forM (fun c => ?_) _).bind fun _ =>
        (Lasting.forM (fun u => hpush _ u) _).bind fun _ => .pure _
      exact (ih.node c).bind fun c' => (Lasting.editChildren _ _).bind fun _ => .editNode c' _
    · rw [copyUsesUpTo]
      exact .bind .get fun d => (Lasting.mapM ih.augment _).bind fun _ => .addUses _
    · rw [copyAugmentUpTo]
      refine .bind .get fun d => (Lasting.addAugment _).bind fun copy => ?_
      refine (Lasting.forM (fun c => ?_) _).bind fun _ =>
        (Lasting.forM (fun u => hpush _ u) _).bind fun _ => .pure _
      exact (ih.node c).bind fun c' => (Lasting.attach _ c').discard

theorem Lasting.copyNode (style : CopyStyle) (i : NodeId) : Lasting (copyNode style i) :=
  get.bind fun d => (copyLasts style d.size).node i

theorem Lasting.copyUses (style : CopyStyle) (i : UsesId) : Lasting (copyUses style i) :=
  get.bind fun d => (copyLasts style d.size).uses i

theorem Lasting.copyAugment (style : CopyStyle) (i : AugmentId) : Lasting (copyAugment style i) :=
  get.bind fun d => (copyLasts style d.size).augment i

end Draft

end YangSchema
