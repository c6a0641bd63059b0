import Mathlib.Data.Finite.Defs
import Mathlib.Data.Fintype.EquivFin
import Mathlib.Order.WellFounded
import YangSchema.Proofs.Draft.Sound

/-!
# References

Freezing follows the references of a definition (`Draft.Refers`).  There are more of them than ways
down: a definition refers to its origin, to the groupings that it shares with its origin, and to the
augmentations that were merged into it.  So nothing about a sound draft keeps references from leading
back to their start, and then freezing is stuck (`Draft.Stuck`).
-/

namespace YangSchema

namespace Draft

variable {d : Draft} {x y : Item} {n : Nat}

/-- The groupings that are listed at a site. -/
def groupingsAt (d : Draft) : Site → List GroupingId
  | .module m => (d.module m).groupings
  | .node i => (d.node i).groupings
  | .grouping g => (d.grouping g).groupings
  | .augment _ => []

section

variable {gs : List GroupingId} {t : Site}

theorem groupingsAt_mapModule {f : ModuleDraft → ModuleDraft}
    (hf : ∀ r, (f r).groupings = r.groupings ++ gs) {i : ModuleId} (ht : t = .module i → d.HasSite t) :
    (d.mapModule i f).groupingsAt t = d.groupingsAt t ++ if t = .module i then gs else [] := by
  cases t with
  | module j =>
    show ((d.mapModule i f).module j).groupings = _
    rw [module_mapModule]
    by_cases hij : i = j
    · subst hij
      rw [if_pos ⟨rfl, ht rfl⟩, hf, if_pos rfl]
      rfl
    · rw [if_neg fun h => hij h.1, if_neg fun h => hij (Site.module.inj h).symm, List.append_nil]
      rfl
  | _ => exact (List.append_nil _).symm

theorem groupingsAt_mapNode {f : NodeDraft → NodeDraft} (hf : ∀ r, (f r).groupings = r.groupings ++ gs)
    {i : NodeId} (ht : t = .node i → d.HasSite t) :
    (d.mapNode i f).groupingsAt t = d.groupingsAt t ++ if t = .node i then gs else [] := by
  cases t with
  | node j =>
    show ((d.mapNode i f).node j).groupings = _
    rw [node_mapNode]
    by_cases hij : i = j
    · subst hij
      rw [if_pos ⟨rfl, ht rfl⟩, hf, if_pos rfl]
      rfl
    · rw [if_neg fun h => hij h.1, if_neg fun h => hij (Site.node.inj h).symm, List.append_nil]
      rfl
  | _ => exact (List.append_nil _).symm

theorem groupingsAt_mapGrouping {f : GroupingDraft → GroupingDraft}
    (hf : ∀ r, (f r).groupings = r.groupings ++ gs) {i : GroupingId}
    (ht : t = .grouping i → d.HasSite t) :
    (d.mapGrouping i f).groupingsAt t = d.groupingsAt t ++ if t = .grouping i then gs else [] := by
  cases t with
  | grouping j =>
    show ((d.mapGrouping i f).grouping j).groupings = _
    rw [grouping_mapGrouping]
    by_cases hij : i = j
    · subst hij
      rw [if_pos ⟨rfl, ht rfl⟩, hf, if_pos rfl]
      rfl
    · rw [if_neg fun h => hij h.1, if_neg fun h => hij (Site.grouping.inj h).symm, List.append_nil]
      rfl
  | _ => exact (List.append_nil _).symm

end

/-- The augmentations of a module, or those that were merged into a node. -/
def augmentsAt (d : Draft) : Site → List AugmentId
  | .module m => (d.module m).augmentations
  | .node i => (d.node i).augmentations
  | _ => []

/-- Whether the site is a shorthand case. -/
def isShorthand (d : Draft) : Site → Bool
  | .node i => (d.node i).kind.isShorthandCase
  | _ => false

/-- `x` is frozen after `y`.  A shorthand case says nothing of its own, so only its children and what
was merged into it matter. -/
inductive Refers (d : Draft) : Item → Item → Prop
  | child {s : Site} {c : NodeId} (h : c ∈ d.childrenOf s) : Refers d (.site (.node c)) (.site s)
  | merged {s : Site} {a : AugmentId} (h : a ∈ d.augmentsAt s) :
    Refers d (.site (.augment a)) (.site s)
  | origin {i o : NodeId} (hi : d.isShorthand (.node i) = false) (h : (d.node i).origin = some o) :
    Refers d (.site (.node o)) (.site (.node i))
  | grouping {s : Site} {g : GroupingId} (hs : d.isShorthand s = false) (h : g ∈ d.groupingsAt s) :
    Refers d (.site (.grouping g)) (.site s)
  | uses {s : Site} {u : UsesId} (hs : d.isShorthand s = false) (h : u ∈ d.usesAt s) :
    Refers d (.uses u) (.site s)
  | inner {u : UsesId} {a : AugmentId} (h : a ∈ (d.usesOf u).augmentations) :
    Refers d (.site (.augment a)) (.uses u)
  | augmentOrigin {a o : AugmentId} (h : (d.augment a).origin = some o) :
    Refers d (.site (.augment o)) (.site (.augment a))

/-- `x` cannot be frozen in so many steps, for this cause: references lead on further than that, or
they lead to an empty shorthand case. -/
inductive Stuck (d : Draft) : Nat → Item → Cause → Prop
  | deep {x : Item} {id : String} : Stuck d 0 x (.nestedInItself id)
  | empty {n : Nat} {i : NodeId} {path : String} (hi : d.isShorthand (.node i) = true)
    (h : d.childrenOf (.node i) = []) :
    Stuck d (n + 1) (.site (.node i)) (.internal (.emptyShorthand path))
  | further {n : Nat} {x y : Item} {c : Cause} (hy : d.Refers y x) (h : Stuck d n y c) :
    Stuck d (n + 1) x c

/-- Where no empty shorthand case is reached, references lead on too far. -/
theorem Stuck.nested {P : Item → Prop} (hP : ∀ x y, P x → d.Refers y x → P y)
    (hfilled : ∀ i, P (.site (.node i)) → d.isShorthand (.node i) = true →
      d.childrenOf (.node i) ≠ []) {c : Cause} (h : d.Stuck n x c) (hx : P x) :
    (∃ id, c = .nestedInItself id) ∧ ¬ Nests d.Refers n x := by
  induction h with
  | deep => exact ⟨⟨_, rfl⟩, fun h => by cases h⟩
  | empty hi hnone => exact absurd hnone (hfilled _ hx hi)
  | further hy _ ih =>
    obtain ⟨hc, hdeep⟩ := ih (hP _ _ hx hy)
    exact ⟨hc, fun h => hdeep (h.down hy)⟩

end Draft

/-! ## Ways that end -/

namespace Nests

variable {α : Type} {r : α → α → Prop} {n : Nat} {x : α}

theorem acc (h : Nests r n x) : Acc r x := by
  induction h with
  | mk _ ih => exact ⟨_, ih⟩

/-- Ways down that end are no longer than there are numbers for the things on them. -/
theorem of_acc {P : α → Prop} (hP : ∀ x y, P x → r y x → P y) (code : α → Nat)
    (hcode : ∀ x, P x → code x < n) (hinj : ∀ x y, P x → P y → code x = code y → x = y)
    (hx : P x) (h : Acc r x) : Nests r n x := by
  have hwf : WellFounded fun y z => Acc r z ∧ r y z := by
    refine ⟨fun z => ⟨z, fun y hy => ?_⟩⟩
    have hacc : Acc r y := hy.1.inv hy.2
    clear hy
    induction hacc with
    | intro y _ ih => exact ⟨y, fun t ht => ih t ht.2⟩
  have hnests : Nests (fun y z => Acc r z ∧ r y z) n x :=
    .of_wellFounded hwf (fun z y hz hy => hP z y hz hy.2) code hcode hinj hx
  clear hx hcode
  induction hnests with
  | mk _ ih => exact .mk fun y hy => ih y ⟨h, hy⟩ (h.inv hy)

end Nests

open Relation in
/-- Where there are only so many things, ways down that lead nowhere twice end. -/
theorem acc_of_acyclic {α : Type} {r : α → α → Prop} {P : α → Prop} {n : Nat}
    (hP : ∀ x y, P x → r y x → P y) (code : α → Nat) (hcode : ∀ x, P x → code x < n)
    (hinj : ∀ x y, P x → P y → code x = code y → x = y) (hacyclic : ∀ x, P x → ¬ TransGen r x x)
    {x : α} (hx : P x) : Acc r x := by
  have hfinite : Finite {x // P x} := by
    refine Finite.of_injective (fun x => (⟨code x.1, hcode x.1 x.2⟩ : Fin n)) ?_
    intro x y hxy
    exact Subtype.ext (hinj x.1 y.1 x.2 y.2 (Fin.mk.inj hxy))
  let R (y x : {x // P x}) : Prop := TransGen r y.1 x.1
  have : IsTrans _ R := ⟨fun _ _ _ h₁ h₂ => TransGen.trans h₁ h₂⟩
  have : Std.Irrefl R := ⟨fun x => hacyclic x.1 x.2⟩
  have hwf := Finite.wellFounded_of_trans_of_irrefl R
  suffices H : ∀ x : {x // P x}, Acc r x.1 from H ⟨x, hx⟩
  intro x
  induction x using hwf.induction with
  | _ x ih => exact ⟨x.1, fun y hy => ih ⟨y, hP _ _ x.2 hy⟩ (.single hy)⟩

end YangSchema
