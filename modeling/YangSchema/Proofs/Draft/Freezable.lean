import YangSchema.Proofs.Draft.Freezing

/-!
# What can be frozen

Freezing has no mark for what is under way, so it ends only if references do.  They do if and only if
nothing that is reached from the modules refers to itself (`Freezable.freezes_iff`).
-/

namespace YangSchema

namespace Draft

open Edit Relation

variable {d : Draft} {is : List ModuleId}

/-! ## What has a snapshot refers to nothing without end -/

theorem exists_of_forall₂_left {α β : Type} {R : α → β → Prop} {l : List α} {l' : List β}
    (h : List.Forall₂ R l l') {a : α} (ha : a ∈ l) : ∃ b, R a b := by
  induction h with
  | nil => cases ha
  | cons hab _ ih =>
    rcases List.mem_cons.1 ha with rfl | ha
    · exact ⟨_, hab⟩
    · exact ih ha

theorem exists_of_optionRel_left {α β : Type} {R : α → β → Prop} {o : Option α} {o' : Option β}
    (h : Option.Rel R o o') {a : α} (ha : o = some a) : ∃ b, R a b := by
  subst ha
  cases h with
  | some hab => exact ⟨_, hab⟩

/-- A snapshot that is taken in so many steps down follows all references in so many steps. -/
structure ShotsNest (d : Draft) (n : Nat) : Prop where
  node : ∀ i v, d.NodeShot n i v → Nests d.Refers n (.site (.node i))
  grouping : ∀ i v, d.GroupingShot n i v → Nests d.Refers n (.site (.grouping i))
  uses : ∀ i v, d.UsesShot n i v → Nests d.Refers n (.uses i)
  augment : ∀ i v, d.AugmentShot n i v → Nests d.Refers n (.site (.augment i))

namespace ShotsNest

variable {n : Nat} (ih : d.ShotsNest n)
include ih

theorem nodes {l : List NodeId} {vs : List Node} (h : List.Forall₂ (d.NodeShot n) l vs) {c : NodeId}
    (hc : c ∈ l) : Nests d.Refers n (.site (.node c)) := by
  obtain ⟨v, hv⟩ := exists_of_forall₂_left h hc
  exact ih.node c v hv

theorem groupings {l : List GroupingId} {vs : List Grouping} (h : List.Forall₂ (d.GroupingShot n) l vs)
    {g : GroupingId} (hg : g ∈ l) : Nests d.Refers n (.site (.grouping g)) := by
  obtain ⟨v, hv⟩ := exists_of_forall₂_left h hg
  exact ih.grouping g v hv

theorem usesOf {l : List UsesId} {vs : List Uses} (h : List.Forall₂ (d.UsesShot n) l vs) {u : UsesId}
    (hu : u ∈ l) : Nests d.Refers n (.uses u) := by
  obtain ⟨v, hv⟩ := exists_of_forall₂_left h hu
  exact ih.uses u v hv

theorem augments {l : List AugmentId} {vs : List Augmentation}
    (h : List.Forall₂ (d.AugmentShot n) l vs) {a : AugmentId} (ha : a ∈ l) :
    Nests d.Refers n (.site (.augment a)) := by
  obtain ⟨v, hv⟩ := exists_of_forall₂_left h ha
  exact ih.augment a v hv

theorem succ : d.ShotsNest (n + 1) where
  node i v h := by
    simp only [NodeShot] at h
    obtain ⟨children, augmentations, hchildren, haugmentations, hrest⟩ := h
    refine .mk fun y hy => ?_
    -- a shorthand case refers to nothing else
    have hwritten : d.isShorthand (.node i) = false → ∃ origin groupings uses,
        Option.Rel (d.NodeShot n) (d.node i).origin origin ∧
        List.Forall₂ (d.GroupingShot n) (d.node i).groupings groupings ∧
        List.Forall₂ (d.UsesShot n) (d.node i).uses uses := fun hi => by
      have hk : ¬ (d.node i).kind.isShorthandCase = true := Bool.eq_false_iff.1 hi
      rw [if_neg hk] at hrest
      obtain ⟨origin, groupings, uses, ho, hg, hu, -⟩ := hrest
      exact ⟨origin, groupings, uses, ho, hg, hu⟩
    cases hy with
    | child hc => exact ih.nodes hchildren hc
    | merged ha => exact ih.augments haugmentations ha
    | origin hi ho =>
      obtain ⟨_, _, _, horigin, -, -⟩ := hwritten hi
      obtain ⟨v, hv⟩ := exists_of_optionRel_left horigin ho
      exact ih.node _ v hv
    | grouping hi hg =>
      obtain ⟨_, _, _, -, hgroupings, -⟩ := hwritten hi
      exact ih.groupings hgroupings hg
    | uses hi hu =>
      obtain ⟨_, _, _, -, -, huses⟩ := hwritten hi
      exact ih.usesOf huses hu
  grouping i v h := by
    simp only [GroupingShot] at h
    obtain ⟨children, groupings, uses, hchildren, hgroupings, huses, -⟩ := h
    refine .mk fun y hy => ?_
    cases hy with
    | child hc => exact ih.nodes hchildren hc
    | merged ha => cases ha
    | grouping _ hg => exact ih.groupings hgroupings hg
    | uses _ hu => exact ih.usesOf huses hu
  uses i v h := by
    simp only [UsesShot] at h
    obtain ⟨augmentations, haugmentations, -⟩ := h
    refine .mk fun y hy => ?_
    cases hy with
    | inner ha => exact ih.augments haugmentations ha
  augment i v h := by
    simp only [AugmentShot] at h
    obtain ⟨origin, children, uses, horigin, hchildren, huses, -⟩ := h
    refine .mk fun y hy => ?_
    cases hy with
    | child hc => exact ih.nodes hchildren hc
    | merged ha => cases ha
    | grouping _ hg => cases hg
    | uses _ hu => exact ih.usesOf huses hu
    | augmentOrigin ho =>
      obtain ⟨v, hv⟩ := exists_of_optionRel_left horigin ho
      exact ih.augment _ v hv

end ShotsNest

theorem shotsNest (d : Draft) (n : Nat) : d.ShotsNest n := by
  induction n with
  | zero =>
    refine ⟨fun i v h => ?_, fun i v h => ?_, fun i v h => ?_, fun i v h => ?_⟩
    · simp only [NodeShot] at h
    · simp only [GroupingShot] at h
    · simp only [UsesShot] at h
    · simp only [AugmentShot] at h
  | succ n ih => exact ih.succ

/-- From a module that has a snapshot references lead on and on nowhere. -/
theorem ModuleSnapshot.acc {i : ModuleId} {m : Module} (h : d.ModuleSnapshot i m) :
    Acc d.Refers (.site (.module i)) := by
  obtain ⟨nodes, groupings, augmentations, uses, hnodes, hgroupings, haugmentations, huses, -⟩ := h
  refine ⟨_, fun y hy => ?_⟩
  cases hy with
  | child hc =>
    obtain ⟨v, n, hv⟩ := exists_of_forall₂_left hnodes hc
    exact ((shotsNest d n).node _ v hv).acc
  | merged ha =>
    obtain ⟨v, n, hv⟩ := exists_of_forall₂_left haugmentations ha
    exact ((shotsNest d n).augment _ v hv).acc
  | grouping _ hg =>
    obtain ⟨v, n, hv⟩ := exists_of_forall₂_left hgroupings hg
    exact ((shotsNest d n).grouping _ v hv).acc
  | uses _ hu =>
    obtain ⟨v, n, hv⟩ := exists_of_forall₂_left huses hu
    exact ((shotsNest d n).uses _ v hv).acc

/-! ## Drafts that can be frozen but for circles -/

/-- References lead from one of the modules to `x`. -/
def Reached (d : Draft) (is : List ModuleId) (x : Item) : Prop :=
  ∃ i ∈ is, ReflTransGen (fun x y => d.Refers y x) (.site (.module i)) x

theorem Reached.refers {x y : Item} (hx : d.Reached is x) (hy : d.Refers y x) : d.Reached is y := by
  obtain ⟨i, hi, hix⟩ := hx
  exact ⟨i, hi, hix.tail hy⟩

/-- What the modules refer to is there, and no shorthand case of it is empty. -/
structure Freezable (d : Draft) (is : List ModuleId) : Prop where
  unfrozen : d.Unfrozen
  hasItem : ∀ x, d.Reached is x → d.HasItem x
  filled : ∀ i, d.Reached is (.site (.node i)) → d.isShorthand (.node i) = true →
    d.childrenOf (.node i) ≠ []

namespace Freezable

variable (h : d.Freezable is)
include h

/-- Freezing fails only where references do not end. -/
theorem of_error {f : Fault} (hf : ((is.mapM freezeModule).perform d).1 = .error f) :
    (∃ id, f.cause = .nestedInItself id) ∧ ∃ i ∈ is, ¬ Acc d.Refers (.site (.module i)) := by
  obtain ⟨i, hi, hstuck⟩ := exists_stuck h.unfrozen hf
  have hreached : d.Reached is (.site (.module i)) := ⟨i, hi, .refl⟩
  obtain ⟨hcause, hdeep⟩ := hstuck.nested (fun _ _ => Reached.refers) h.filled hreached
  refine ⟨hcause, i, hi, fun hacc => hdeep ?_⟩
  refine (Nests.of_acc (P := d.Reached is) (fun _ _ => Reached.refers) d.itemNumber ?_ ?_
    hreached hacc).mono
    (Nat.le_succ _)
  · exact fun x hx => itemNumber_lt (h.hasItem x hx)
  · exact fun x y hx hy => itemNumber_inj (h.hasItem x hx) (h.hasItem y hy)

/-- All modules are frozen if and only if nothing that they refer to refers to itself. -/
theorem freezes_iff : (∃ ms, ((is.mapM freezeModule).perform d).1 = .ok ms) ↔
    ∀ x, d.Reached is x → ¬ TransGen d.Refers x x := by
  constructor
  · rintro ⟨ms, hms⟩ x ⟨i, hi, hix⟩ hxx
    obtain ⟨m, him⟩ := exists_of_forall₂_left (forall₂_moduleSnapshot h.unfrozen hms) hi
    have hacc : Acc d.Refers x := by
      clear hxx
      induction hix with
      | refl => exact him.acc
      | tail _ hy ih => exact ih.inv hy
    have hclosure := hacc.transGen
    clear hix hacc
    induction hclosure with
    | intro x _ ih => exact ih x hxx hxx
  · intro hacyclic
    cases hms : ((is.mapM freezeModule).perform d).1 with
    | ok ms => exact ⟨ms, rfl⟩
    | error f =>
      obtain ⟨-, i, hi, hdeep⟩ := h.of_error hms
      -- there are only so many definitions
      refine absurd (acc_of_acyclic (P := d.Reached is) (n := d.size) (fun _ _ => Reached.refers)
        d.itemNumber ?_ ?_ hacyclic ⟨i, hi, .refl⟩) hdeep
      · exact fun x hx => itemNumber_lt (h.hasItem x hx)
      · exact fun x y hx hy => itemNumber_inj (h.hasItem x hx) (h.hasItem y hy)

end Freezable

end Draft

end YangSchema
