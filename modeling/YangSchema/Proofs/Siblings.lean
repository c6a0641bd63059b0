import YangSchema.Proofs.Building
import YangSchema.Proofs.Inference.Discerning

/-!
# Siblings stay distinct

If no two children of one site are declared with the same name, none come to have the same name in the
inference: after every step of a run all siblings are distinct, and so they are in what is frozen when
there are no deviations (`siblings_stay_distinct`).
-/

namespace YangSchema

open Draft Edit Declare

/-- Carrying out one task keeps siblings distinct. -/
theorem Step.discerning {S S' : Stage} {m : Move} {d₀ : Draft} (hS : S.From d₀)
    (hd : S.draft.Discerning) (h : Step S m S') : S'.draft.Discerning := by
  cases h with
  | @expand pre post augments d d' t h =>
    have ht : t ∈ pre ++ t :: post := by simp
    refine ((hS.stands t ht).ends_attempt_discerning hS.start (fun g hg => ?_) hS.follows hd _).of_ok h
    rw [← hS.follows.resolve] at hg
    exact hS.acyclic t ht g hg
  | @merge uses pre post d d' t hfirst hwait h =>
    have ht : t ∈ pre ++ t :: post := by simp
    refine Ends.of_ok (Q := fun _ d' => d'.Discerning) (E := fun _ _ => True) ?_ h
    refine AugmentTask.ends_attempt_of (fun _ => hd) fun n hn => ?_
    obtain ⟨i, hunder⟩ := findDataNode_under hS.sound hn
    refine ends_merge_discerning hS.follows hd (hS.declared t ht) (findDataNode_lt hS.sound hn)
      fun b hb => ?_
    -- what is below a module is in no body
    exact absurd (hb.root_unique hunder b.site_ne_node fun j hj => by cases hj) (b.site_ne_module i)

theorem Run.discerning {S S' : Stage} {ms : List Move} {d₀ : Draft} (hS : S.From d₀)
    (hd : S.draft.Discerning) (h : Run S ms S') : S'.draft.Discerning := by
  induction h with
  | nil => exact hd
  | cons hstep _ ih => exact ih (hstep.from hS) (hstep.discerning hS hd)

theorem Workspace.Sane.discerning {w : Workspace} (h : w.Sane) (hd : w.draft.Distinct) :
    w.draft.Discerning :=
  hd.discerning h.sound fun b i j hi hj => (h.named i b hi).trans (h.named j b hj).symm

/-- If all siblings are declared with different names, siblings have different names after every step of
the inference, in whatever order the tasks are carried out; and without deviations, the draft that is
frozen has distinct siblings. -/
theorem siblings_stay_distinct {r : Registry} {config : BuildConfig} {order : List Source}
    {modules : List ModuleId} {w : Workspace}
    (hdeclared : (declareModules r config order).run {} = .ok (modules, w))
    (hcycle : checkGroupings w.draft w.tasks.uses = .ok ()) (hdistinct : w.draft.Distinct) :
    (∀ ms S, Run (w.tasks.stage w.draft) ms S → S.draft.Distinct) ∧
    Ends (infer w.tasks) w.draft
      (fun _ d => d.Distinct ∧ ∃ ms, Run (w.tasks.stage w.draft) ms ⟨[], [], d⟩)
      (fun f d => (w.tasks.stage w.draft).Fails f d ∨
        d.Distinct ∧ ∃ ms S, Run (w.tasks.stage w.draft) ms S ∧ S.draft = d) ∧
    (w.tasks.deviations = [] → ∀ schema,
      ((effectiveModel w.tasks modules).perform w.draft).1 = .ok schema →
      ∃ d, (infer w.tasks).perform w.draft = (.ok ⟨⟩, d) ∧ d.Distinct ∧
        ((modules.mapM freezeModule).perform d).1 = .ok schema.modules) := by
  have hsane : w.Sane := (gives_declareModules r config order modules w hdeclared).toSane
  have hfrom := hsane.from hcycle
  have hruns : ∀ ms S, Run (w.tasks.stage w.draft) ms S → S.draft.Distinct := fun ms S hrun =>
    (hrun.discerning hfrom (hsane.discerning hdistinct)).distinct
  have hinfer : Ends (infer w.tasks) w.draft
      (fun _ d => d.Distinct ∧ ∃ ms, Run (w.tasks.stage w.draft) ms ⟨[], [], d⟩)
      fun f d => (w.tasks.stage w.draft).Fails f d ∨
        d.Distinct ∧ ∃ ms S, Run (w.tasks.stage w.draft) ms S ∧ S.draft = d := by
    refine (ends_infer hfrom.toReady).mono ?_ ?_
    · rintro - d ⟨ms, hrun⟩
      exact ⟨hruns ms _ hrun, ms, hrun⟩
    · rintro f d (hfails | ⟨ms, S, hrun, -, rfl, -⟩)
      · exact .inl hfails
      · exact .inr ⟨hruns ms S hrun, ms, S, hrun, rfl⟩
  refine ⟨hruns, hinfer, fun hdeviations schema hmodel => ?_⟩
  obtain ⟨-, d, d', hperform, hdeviate, hfreeze⟩ := parts_of_effectiveModel hmodel
  rw [hdeviations, applyDeviations_nil] at hdeviate
  obtain rfl : d = d' := (Prod.mk.inj hdeviate).2
  exact ⟨d, hperform, (hinfer.of_ok hperform).1, hfreeze⟩

/-- A module with a leaf in a choice, a uses beside the choice, and an augmentation that merges another
leaf into the choice. -/
def sharedNameSource : Source where
  label := "m.yang"
  kind := .module
  name := "m"
  namespaceUri := some "urn:m"
  parent := none
  ownPrefix := "m"
  revision := none
  header := {}
  imports := []
  includes := []
  root := {
    keyword := .word .moduleWord
    argument := some "m"
    children := [
      { keyword := .word .grouping, argument := some "g"
        children := [{ keyword := .word .leaf, argument := some "x" }] },
      { keyword := .word .container, argument := some "c"
        children := [
          { keyword := .word .uses, argument := some "g" },
          { keyword := .word .choice, argument := some "ch"
            children := [{ keyword := .word .leaf, argument := some "a" }] }] },
      { keyword := .word .augment, argument := some "/m:c/m:ch"
        children := [{ keyword := .word .leaf, argument := some "x" }] }] }

/-- The leaf of the grouping and the one that is merged have one name, but not one parent. -/
theorem siblings_of_sharedNameSource_stay_distinct :
    ∃ modules w d, (declareModules .empty {} [sharedNameSource]).run {} = .ok (modules, w) ∧
      w.tasks.uses.length = 1 ∧ w.tasks.augments.length = 1 ∧
      (infer w.tasks).perform w.draft = (.ok ⟨⟩, d) ∧ d.nodes.size = w.draft.nodes.size + 3 ∧
      d.Distinct := by
  have hcheck : (((declareModules .empty {} [sharedNameSource]).run {}).toOption.any fun x =>
      decide (x.2.tasks.uses.length = 1 ∧ x.2.tasks.augments.length = 1 ∧
        checkGroupings x.2.draft x.2.tasks.uses = .ok () ∧ x.2.draft.Distinct ∧
        ((infer x.2.tasks).perform x.2.draft).1 = .ok ⟨⟩ ∧
        ((infer x.2.tasks).perform x.2.draft).2.nodes.size = x.2.draft.nodes.size + 3)) = true := by
    decide +kernel
  simp only [Option.any_eq_true, toOption_eq_some, decide_eq_true_eq] at hcheck
  obtain ⟨⟨modules, w⟩, hdeclared, huses, haugments, hcycle, hdistinct, hinfer, hsize⟩ := hcheck
  have hperform : (infer w.tasks).perform w.draft = (.ok ⟨⟩, ((infer w.tasks).perform w.draft).2) :=
    Prod.ext hinfer rfl
  exact ⟨modules, w, _, hdeclared, huses, haugments, hperform, hsize,
    ((siblings_stay_distinct hdeclared hcycle hdistinct).2.1.of_ok hperform).1⟩

end YangSchema
