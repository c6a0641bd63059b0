import YangSchema.Proofs.Completeness
import YangSchema.Proofs.Inference.Layers
import YangSchema.Proofs.Inference.Shorthands

/-!
# Whether freezing ends

What declaration, inference and deviations come to can be frozen, but for references that lead in a
circle (`Workspace.Declared.freezable`).  There is no circle unless a body leans on itself by the
declarations.  The check for circular groupings does not see that a body leans on the groupings that
are defined at its nodes, and so there are circles that it lets pass (`freezing_ends_selfNestingSource`).
-/

namespace YangSchema

open Draft Edit Relation

/-! ## After deviations -/

namespace Draft

variable {d d₁ : Draft} {is : List ModuleId}

/-- When nodes are taken out no reference is added. -/
theorem Trimmed.refers (h : Trimmed d d₁) {x y : Item} (hy : d₁.Refers y x) : d.Refers y x := by
  have hshorthand : ∀ s, d₁.isShorthand s = d.isShorthand s := by
    intro s
    cases s with
    | node i => exact congrArg NodeKind.isShorthandCase (h.node i).kind
    | _ => rfl
  cases hy with
  | child hc => exact .child ((h.children _).subset hc)
  | merged ha => exact .merged ((h.lists _).2.2 ▸ ha)
  | @origin i o hi ho =>
    refine .origin (hshorthand (.node i) ▸ hi) ?_
    rw [(h.node i).record] at ho
    exact ho
  | grouping hs hg => exact .grouping (hshorthand _ ▸ hs) ((h.lists _).2.1 ▸ hg)
  | uses hs hu => exact .uses (hshorthand _ ▸ hs) ((h.lists _).1 ▸ hu)
  | inner ha => exact .inner (h.usesOf_eq _ ▸ ha)
  | augmentOrigin ho => exact .augmentOrigin (h.augment_eq _ ▸ ho)

theorem Trimmed.hasItem_iff (h : Trimmed d d₁) : ∀ x, d₁.HasItem x ↔ d.HasItem x :=
  hasItem_iff_of_sizes h.nodes_size (by rw [h.groupings]) (by rw [h.uses]) (by rw [h.augments])
    h.modules_size

theorem Trimmed.reached (h : Trimmed d d₁) {x : Item} (hx : d₁.Reached is x) : d.Reached is x := by
  obtain ⟨i, hi, hix⟩ := hx
  exact ⟨i, hi, ReflTransGen.mono (fun _ _ => h.refers) _ _ hix⟩

theorem Trimmed.acc (h : Trimmed d d₁) {x : Item} (hx : Acc d.Refers x) : Acc d₁.Refers x := by
  induction hx with
  | intro x _ ih => exact ⟨x, fun y hy => ih y (h.refers hy)⟩

end Draft

/-! ## From declared modules -/

variable {w : Workspace} {modules : List ModuleId} {d d' : Draft}

/-- The inference starts from a pristine draft that lists what it knows of. -/
theorem Workspace.Declared.start (h : w.Declared modules) : (w.tasks.stage w.draft).Start where
  sound := h.sound
  pristine := h.pristine
  stands := h.uses
  declared t ht := (h.augments t (List.mem_mergeSort.1 ht)).lt
  tops m a ha := by
    obtain ⟨t, ht, rfl⟩ := h.listed m a ha
    exact (h.augments t ht).lt

theorem Workspace.Sane.filled (h : w.Sane) : w.draft.Filled := by
  intro i hi
  obtain ⟨c, hc, -⟩ := h.shorthands i hi
  exact List.ne_nil_of_mem (hc ▸ List.mem_singleton.2 rfl : c ∈ w.draft.childrenOf (.node i))

/-- Below modules shorthand cases stand under choices, whatever the inference did. -/
theorem Draft.Follows.tiered {d₀ : Draft} (h : d₀.Follows d) : d.Tiered := by
  intro m y hy hchoice c hc
  have hm : d.HasSite (.module m) :=
    h.sound.hasSite_above hy (hasSite_of_mem_childrenOf hc)
  refine h.regular.unwrapped (.module m) ?_ y hy hchoice c hc
  exact Nat.lt_of_lt_of_eq hm h.modules_size

section Completed

variable (h : w.Declared modules) (hcycle : checkGroupings w.draft w.tasks.uses = .ok ())
  (hinfer : (infer w.tasks).perform w.draft = (.ok ⟨⟩, d))
  (hdev : (applyDeviations w.tasks.deviations).perform d = (.ok ⟨⟩, d'))
include h hcycle hinfer hdev

theorem Workspace.Declared.layered : Layered (w.tasks.stage w.draft) d ∧ Pruned d d' ∧
    d'.Freezable modules := by
  have hfrom := h.toSane.from hcycle
  obtain ⟨ms, hrun⟩ := (ends_infer hfrom.toReady).of_ok hinfer
  have hstrokes := hrun.strokes hfrom
  have hfollows := (hrun.from hfrom).follows
  have hlayered := h.start.layered.strokes h.start hstrokes
  have hpruned := (endsPruned_applyDeviations w.tasks.deviations hfollows.sound).of_ok hdev
  refine ⟨hlayered, hpruned, hpruned.sound.unfrozen, fun x hx => ?_, fun i hi hshorthand => ?_⟩
  · refine (hpruned.hasItem_iff x).2 (hlayered.hasItem_of_reached h.start (fun m hm => ?_)
      (hpruned.reached hx))
    exact (h.mem_modules m).1 hm
  · exact hpruned.filled (h.filled.strokes h.sound hstrokes) hfollows.tiered
      ((h.pristine.traced.strokes h.sound hstrokes).pruned hpruned) hi hshorthand

end Completed

/-- Freezing ends for all modules exactly if nothing that they refer to refers to itself, and fails for
no other reason.  Nothing does unless some body leans on itself by the declarations. -/
theorem freezing_ends {r : Registry} {config : BuildConfig} {order : List Source}
    (hdeclared : (declareModules r config order).run {} = .ok (modules, w))
    (hcycle : checkGroupings w.draft w.tasks.uses = .ok ())
    (hinfer : (infer w.tasks).perform w.draft = (.ok ⟨⟩, d))
    (hdev : (applyDeviations w.tasks.deviations).perform d = (.ok ⟨⟩, d')) :
    ((∃ ms, ((modules.mapM freezeModule).perform d').1 = .ok ms) ↔
      ∀ x, d'.Reached modules x → ¬ TransGen d'.Refers x x) ∧
    (∀ f, ((modules.mapM freezeModule).perform d').1 = .error f →
      ∃ id, f.cause = .nestedInItself id) ∧
    ((∀ o, ¬ TransGen (w.tasks.stage w.draft).Leans o o) →
      ∃ ms, ((modules.mapM freezeModule).perform d').1 = .ok ms) := by
  have h : w.Declared modules := gives_declareModules r config order modules w hdeclared
  obtain ⟨hlayered, hpruned, hfreezable⟩ := h.layered hcycle hinfer hdev
  refine ⟨hfreezable.freezes_iff, fun f hf => (hfreezable.of_error hf).1, fun hacyclic => ?_⟩
  cases hms : ((modules.mapM freezeModule).perform d').1 with
  | ok ms => exact ⟨ms, rfl⟩
  | error f =>
    obtain ⟨-, m, hm, hdeep⟩ := hfreezable.of_error hms
    refine absurd (hpruned.acc ?_) hdeep
    exact hlayered.acc_module h.start hacyclic ((h.mem_modules m).1 hm)

/-! ## An example -/

/-- A module in which a grouping is used by a grouping that is defined at a node in it. -/
def selfNestingSource : Source where
  label := "m.yang"
  kind := .module
  name := "m"
  namespaceUri := some "urn:m"
  parent := none
  ownPrefix := "m"
  revision := none
  header := {}
  imports := []
  includes := []
  root := {
    keyword := .word .moduleWord
    argument := some "m"
    children := [
      { keyword := .word .grouping, argument := some "g"
        children := [
          { keyword := .word .container, argument := some "n"
            children := [
              { keyword := .word .grouping, argument := some "h"
                children := [{ keyword := .word .uses, argument := some "g" }] }] }] }] }

/-- The check passes and all tasks are carried out, but the modules are not frozen: something refers to
itself, and some body leans on itself. -/
theorem freezing_ends_selfNestingSource :
    ∃ modules w d d' f, (declareModules .empty {} [selfNestingSource]).run {} = .ok (modules, w) ∧
      checkGroupings w.draft w.tasks.uses = .ok () ∧
      (infer w.tasks).perform w.draft = (.ok ⟨⟩, d) ∧
      (applyDeviations w.tasks.deviations).perform d = (.ok ⟨⟩, d') ∧
      ((modules.mapM freezeModule).perform d').1 = .error f ∧ (∃ id, f.cause = .nestedInItself id) ∧
      (∃ x, d'.Reached modules x ∧ TransGen d'.Refers x x) ∧
      ∃ o, TransGen (w.tasks.stage w.draft).Leans o o := by
  have hcheck : (((declareModules .empty {} [selfNestingSource]).run {}).toOption.any fun x =>
      decide (checkGroupings x.2.draft x.2.tasks.uses = .ok ()) &&
        (((infer x.2.tasks).perform x.2.draft).1.toOption.any fun _ =>
        let d := ((infer x.2.tasks).perform x.2.draft).2
        ((applyDeviations x.2.tasks.deviations).perform d).1.toOption.any fun _ =>
          let d' := ((applyDeviations x.2.tasks.deviations).perform d).2
          (fault? ((x.1.mapM freezeModule).perform d').1).isSome)) = true := by decide +kernel
  simp only [Option.any_eq_true, toOption_eq_some, Bool.and_eq_true, decide_eq_true_eq,
    Option.isSome_iff_exists, fault?_eq_some] at hcheck
  obtain ⟨⟨modules, w⟩, hdeclared, hcycle, _, hinfer, _, hdev, f, hf⟩ := hcheck
  obtain ⟨d, hd⟩ : ∃ d, ((infer w.tasks).perform w.draft).2 = d := ⟨_, rfl⟩
  obtain ⟨d', hd'⟩ : ∃ d', ((applyDeviations w.tasks.deviations).perform d).2 = d' := ⟨_, rfl⟩
  rw [hd] at hdev hf
  rw [hd'] at hf
  obtain ⟨hiff, hcause, hacyclic⟩ :=
    freezing_ends hdeclared hcycle (Prod.ext hinfer hd) (Prod.ext hdev hd')
  have hno : ¬ ∃ ms, ((modules.mapM freezeModule).perform d').1 = .ok ms := by
    rintro ⟨ms, hms⟩
    cases hf.symm.trans hms
  refine ⟨modules, w, d, d', f, hdeclared, hcycle, Prod.ext hinfer hd, Prod.ext hdev hd', hf,
    hcause f hf, ?_, ?_⟩
  · exact Classical.byContradiction fun hnone => hno (hiff.2 fun x hx hxx => hnone ⟨x, hx, hxx⟩)
  · exact Classical.byContradiction fun hnone => hno (hacyclic fun o ho => hnone ⟨o, ho⟩)

end YangSchema
