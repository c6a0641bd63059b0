import YangSchema.Proofs.Draft.Lasting
import YangSchema.Proofs.Draft.Remembering

/-!
# Freezing with snapshots and without

A draft whose references end is frozen, definition by definition and in any order, as plain recursion
freezes it; and once a definition is frozen its snapshot is the answer for good, whatever is done with the
draft later (`Draft.freezing_eq_plain`).
-/

namespace YangSchema

namespace Draft

open Edit Relation

variable {d₀ d d₁ : Draft} {x : Item} {v : Snapshot}

/-! ## One definition after the other -/

/-- Freezes definitions one after the other, also after one that fails: what each comes to, and the draft in
the end. -/
def freezeEach (d : Draft) : List Item → List (Except Fault Snapshot) × Draft
  | [] => ([], d)
  | x :: xs =>
    let one := (freeze x).perform d
    let rest := freezeEach one.2 xs
    (one.1 :: rest.1, rest.2)

theorem Acyclic.freezeEach (h : d₀.Acyclic) (hd : Remembers d₀ d) {xs : List Item}
    (hxs : ∀ x ∈ xs, d₀.HasItem x) :
    (d.freezeEach xs).1 = xs.map d₀.plain ∧ Remembers d₀ (d.freezeEach xs).2 := by
  induction xs generalizing d with
  | nil => exact ⟨rfl, hd⟩
  | cons x xs ih =>
    obtain ⟨hx, hxs⟩ := List.forall_mem_cons.1 hxs
    have hone : ((Draft.freeze x).perform d).1 = d₀.plain x ∧ Remembers d₀ ((Draft.freeze x).perform d).2 := by
      have hends := h.answers_freeze hx d hd
      cases hrun : (Draft.freeze x).perform d with
      | mk r d' =>
        cases r with
        | ok v => exact ⟨(hends.of_ok hrun).2.symm, (hends.of_ok hrun).1⟩
        | error f => exact ⟨(hends.of_error hrun).2.symm, (hends.of_error hrun).1⟩
    obtain ⟨hrest, hlast⟩ := ih hone.2 hxs
    exact ⟨congrArg₂ List.cons hone.1 hrest, hlast⟩

/-! ## Operations -/

/-- What can be done with a draft. -/
inductive Operation where
  | addNode (r : NodeDraft)
  | addGrouping (r : GroupingDraft)
  | addUses (r : UsesDraft)
  | addAugment (r : AugmentDraft)
  | addModule (r : ModuleDraft)
  | editNode (i : NodeId) (f : NodeDraft → NodeDraft)
  | editGrouping (i : GroupingId) (f : GroupingDraft → GroupingDraft)
  | editUses (i : UsesId) (f : UsesDraft → UsesDraft)
  | editAugment (i : AugmentId) (f : AugmentDraft → AugmentDraft)
  | editModule (i : ModuleId) (f : ModuleDraft → ModuleDraft)
  | pushUses (s : Site) (u : UsesId)
  | pushUnknown (s : Site) (us : List UnknownStatement)
  | pushGrouping (s : Site) (g : GroupingId)
  | pushTypedef (s : Site) (t : Typedef)
  | attach (s : Site) (c : NodeId)
  | detach (c : NodeId)
  | copyNode (style : CopyStyle) (i : NodeId)
  | copyUses (style : CopyStyle) (i : UsesId)
  | copyAugment (style : CopyStyle) (i : AugmentId)
  | freeze (x : Item)

/-- Carries out an operation; the ids and snapshots that it answers are dropped. -/
def Operation.run : Operation → Edit PUnit
  | .addNode r => discard (Draft.addNode r)
  | .addGrouping r => discard (Draft.addGrouping r)
  | .addUses r => discard (Draft.addUses r)
  | .addAugment r => discard (Draft.addAugment r)
  | .addModule r => discard (Draft.addModule r)
  | .editNode i f => Draft.editNode i f
  | .editGrouping i f => Draft.editGrouping i f
  | .editUses i f => Draft.editUses i f
  | .editAugment i f => Draft.editAugment i f
  | .editModule i f => Draft.editModule i f
  | .pushUses s u => Draft.pushUses s u
  | .pushUnknown s us => Draft.pushUnknown s us
  | .pushGrouping s g => Draft.pushGrouping s g
  | .pushTypedef s t => Draft.pushTypedef s t
  | .attach s c => discard (Draft.attach s c)
  | .detach c => Draft.detach c
  | .copyNode style i => discard (Draft.copyNode style i)
  | .copyUses style i => discard (Draft.copyUses style i)
  | .copyAugment style i => discard (Draft.copyAugment style i)
  | .freeze x => discard (Draft.freeze x)

/-- The draft after some operations, those that failed included. -/
def after (d : Draft) (ops : List Operation) : Draft :=
  ops.foldl (fun d op => (op.run.perform d).2) d

theorem Operation.lasting (op : Operation) : Lasting op.run := by
  cases op with
  | addNode r => exact (Lasting.addNode r).discard
  | addGrouping r => exact (Lasting.addGrouping r).discard
  | addUses r => exact (Lasting.addUses r).discard
  | addAugment r => exact (Lasting.addAugment r).discard
  | addModule r => exact (Lasting.addModule r).discard
  | editNode i f => exact .editNode i f
  | editGrouping i f => exact .editGrouping i f
  | editUses i f => exact .editUses i f
  | editAugment i f => exact .editAugment i f
  | editModule i f => exact .editModule i f
  | pushUses s u => exact .pushUses s u
  | pushUnknown s us => exact .pushUnknown s us
  | pushGrouping s g => exact .pushGrouping s g
  | pushTypedef s t => exact .pushTypedef s t
  | attach s c => exact (Lasting.attach s c).discard
  | detach c => exact .detach c
  | copyNode style i => exact (Lasting.copyNode style i).discard
  | copyUses style i => exact (Lasting.copyUses style i).discard
  | copyAugment style i => exact (Lasting.copyAugment style i).discard
  | freeze x => exact Lasting.discard fun d => (ends_freeze x d).mono (fun _ _ h => h.1) fun _ _ h => h

theorem lasts_after (d : Draft) (ops : List Operation) : d.Lasts (d.after ops) := by
  induction ops generalizing d with
  | nil => exact .refl d
  | cons op ops ih => exact (op.lasting d).draft.trans (ih _)

/-! ## Snapshots and plain freezing -/

/-- Let the references of `d₀` end.  If nothing of it is frozen, or no more than snapshots of these records were
taken, then whatever is frozen earlier, each definition that is frozen later comes to what it comes to without
snapshots.  And in any draft at all, a snapshot that was answered is on its shelf after all that is done later,
and is answered again. -/
theorem freezing_eq_plain (h : d₀.Acyclic) :
    (d₀.Unfrozen → Remembers d₀ d₀) ∧
    (∀ d, Remembers d₀ d → ∀ earlier later : List Item, (∀ x ∈ earlier ++ later, d₀.HasItem x) →
      ((d.freezeEach earlier).2.freezeEach later).1 = later.map d₀.plain) ∧
    ∀ (d₁ d₂ : Draft) (x : Item) (v : Snapshot), d₁.HasItem x → (freeze x).perform d₁ = (.ok v, d₂) →
      ∀ ops, (d₂.after ops).taken? x = some v ∧
        (freeze x).perform (d₂.after ops) = (.ok v, d₂.after ops) := by
  refine ⟨.of_unfrozen, fun d hd earlier later hin => ?_, fun d₁ d₂ x v hx hrun ops => ?_⟩
  · rw [List.forall_mem_append] at hin
    exact (h.freezeEach (h.freezeEach hd hin.1).2 hin.2).1
  · have htaken : (d₂.after ops).taken? x = some v :=
      (lasts_after d₂ ops).taken x v (((ends_freeze x d₁).of_ok hrun).2 hx)
    exact ⟨htaken, perform_freeze_of_taken htaken⟩

/-! ## An example -/

/-- A grouping with a leaf, and below a container, where nothing is configuration, a copy of the leaf; the
grouping is listed by the container and by the module. -/
def sharedGrouping : Draft where
  nodes := ⟨#[
    { record := { NodeDraft.blank .container ⟨default, "c"⟩ with
        config := some false, children := [⟨1⟩], groupings := [⟨0⟩], parent := some (.module ⟨0⟩) } },
    { record := { NodeDraft.blank .leaf ⟨default, "x"⟩ with
        origin := some ⟨2⟩, parent := some (.node ⟨0⟩) } },
    { record := { NodeDraft.blank .leaf ⟨default, "x"⟩ with parent := some (.grouping ⟨0⟩) } }]⟩
  groupings := ⟨#[{ record := { facts := default, children := [⟨2⟩] } }]⟩
  modules := ⟨#[{ record := { facts := default, children := [⟨0⟩], groupings := [⟨0⟩] } }]⟩

/-- What is referred to has a lower rank. -/
def sharedGroupingRank : Item → Nat
  | .site (.module _) => 3
  | .site (.node i) => 2 - i.index
  | .site (.grouping _) => 1
  | _ => 0

theorem acyclic_sharedGrouping : sharedGrouping.Acyclic :=
  .of_rank sharedGroupingRank (forall_hasItem.2 (by decide))

theorem unfrozen_sharedGrouping : sharedGrouping.Unfrozen :=
  ⟨fun _ => Shelf.isFrozen_of_all rfl, fun _ => Shelf.isFrozen_of_all rfl,
    fun _ => Shelf.isFrozen_of_all rfl, fun _ => Shelf.isFrozen_of_all rfl,
    fun _ => Shelf.isFrozen_of_all rfl⟩

/-- The container is frozen after the grouping that it shares with the module.  An edit of its `config`, which
is refused, and a copy of it change nothing about its snapshot. -/
theorem freezing_sharedGrouping :
    sharedGrouping.Acyclic ∧ sharedGrouping.Unfrozen ∧
    ((sharedGrouping.freezeEach [.site (.grouping ⟨0⟩), .site (.node ⟨1⟩)]).2.freezeEach
        [.site (.node ⟨0⟩), .site (.module ⟨0⟩)]).1 =
      [sharedGrouping.plain (.site (.node ⟨0⟩)), sharedGrouping.plain (.site (.module ⟨0⟩))] ∧
    ∃ c d, sharedGrouping.plain (.site (.node ⟨0⟩)) = .ok (.node c) ∧
      c.children.map (fun n => (n.config, n.origin.map (·.config))) = [(false, some true)] ∧
      (freeze (.site (.node ⟨0⟩))).perform sharedGrouping = (.ok (.node c), d) ∧
      (d.after [.editNode ⟨0⟩ fun r => { r with config := none }, .copyNode {} ⟨0⟩]).taken?
        (.site (.node ⟨0⟩)) = some (.node c) := by
  obtain ⟨hstart, hplain, hlast⟩ := freezing_eq_plain acyclic_sharedGrouping
  refine ⟨acyclic_sharedGrouping, unfrozen_sharedGrouping,
    hplain _ (hstart unfrozen_sharedGrouping) [_, _] [_, _] (by decide), ?_⟩
  refine ⟨_, _, rfl, rfl, rfl, ?_⟩
  exact (hlast sharedGrouping _ (.site (.node ⟨0⟩)) _ (by decide) rfl _).1

end Draft

end YangSchema
