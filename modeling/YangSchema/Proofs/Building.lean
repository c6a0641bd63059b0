import YangSchema.Proofs.Completeness
import YangSchema.Proofs.Inference.Pruning
import YangSchema.Proofs.Inference.Strokes
import YangSchema.Proofs.Schema.Frozen

/-!
# What a build comes to

A build that succeeds has declared its modules in a workspace, has carried out all tasks in a run, has
applied the deviations, and has frozen what came of it (`Builds`, `Builds.Course`).
-/

namespace YangSchema

open Draft Edit Declare

/-- The sources are built into the schema; the declared modules are `modules`, and what they are made
of is in the workspace. -/
structure Builds (sources : List ParsedSource) (config : BuildConfig) (modules : List ModuleId)
    (w : Workspace) (schema : Schema) : Prop where
  declared : ∃ r order, collectSources sources = .ok r ∧ r.link = .ok order ∧
    (declareModules r config order).run {} = .ok (modules, w)
  model : ((effectiveModel w.tasks modules).perform w.draft).1 = .ok schema

theorem Phase.run_eq_ok {α : Type} {p : Phase} {x : Except Fault α} {a : α} :
    p.run x = .ok a ↔ x = .ok a := by
  cases x <;> simp [run, Except.mapError]

theorem applyDeviations_nil : applyDeviations [] = pure ⟨⟩ := by
  unfold applyDeviations
  rw [List.mergeSort_nil]
  rfl

/-- Augmentations whose tasks are found in the order of their targets need not be sorted. -/
theorem perform_infer_of_pairwise {tasks : Tasks} {d d' : Draft}
    (hsorted : tasks.augments.Pairwise fun t u => (t.applyOrder u).isLE = true)
    (h : (settle tasks.uses tasks.augments).perform d = (.ok ([], []), d')) :
    (infer tasks).perform d = (.ok ⟨⟩, d') := by
  unfold infer
  rw [List.mergeSort_of_pairwise hsorted, perform_bind_of_ok h]
  rfl

/-- A build succeeds if all of its parts do. -/
theorem buildSchema_eq_ok {sources : List ParsedSource} {config : BuildConfig} {r : Registry}
    {order : List Source} {modules : List ModuleId} {w : Workspace} {d d' : Draft} {ms : List Module}
    (hr : collectSources sources = .ok r) (horder : r.link = .ok order)
    (hprefixes : checkPrefixes r order = .ok ⟨⟩)
    (hdeclared : (declareModules r config order).run {} = .ok (modules, w))
    (hcycle : checkGroupings w.draft w.tasks.uses = .ok ⟨⟩)
    (hinfer : (infer w.tasks).perform w.draft = (.ok ⟨⟩, d))
    (hdeviate : (applyDeviations w.tasks.deviations).perform d = (.ok ⟨⟩, d'))
    (hfreeze : ((modules.mapM freezeModule).perform d').1 = .ok ms) :
    buildSchema sources config = .ok ⟨ms⟩ := by
  have hmodel : ((effectiveModel w.tasks modules).perform w.draft).1 = .ok ⟨ms⟩ := by
    obtain ⟨d'', hfreeze⟩ : ∃ d'', (modules.mapM freezeModule).perform d' = (.ok ms, d'') :=
      ⟨_, Prod.ext hfreeze rfl⟩
    have hchecked : perform (liftM (checkGroupings w.draft w.tasks.uses)) w.draft = (.ok ⟨⟩, w.draft) := by
      rw [hcycle]
      rfl
    unfold effectiveModel
    rw [perform_bind_of_ok (perform_get _), perform_bind_of_ok hchecked, perform_bind_of_ok hinfer,
      perform_bind_of_ok hdeviate, perform_bind_of_ok hfreeze]
    rfl
  unfold buildSchema
  simp only [bind, Except.bind, Phase.run_eq_ok.2 hr, Phase.run_eq_ok.2 horder,
    Phase.run_eq_ok.2 hprefixes, Phase.run_eq_ok.2 hdeclared, Phase.run_eq_ok.2 hmodel]

/-- The parts of the last phase, when it succeeds. -/
theorem parts_of_effectiveModel {tasks : Tasks} {modules : List ModuleId} {d₀ : Draft} {schema : Schema}
    (h : ((effectiveModel tasks modules).perform d₀).1 = .ok schema) :
    checkGroupings d₀ tasks.uses = .ok () ∧ ∃ d d',
      (infer tasks).perform d₀ = (.ok ⟨⟩, d) ∧
      (applyDeviations tasks.deviations).perform d = (.ok ⟨⟩, d') ∧
      ((modules.mapM freezeModule).perform d').1 = .ok schema.modules := by
  unfold effectiveModel at h
  obtain ⟨_, d₁, hget, h⟩ := ok_of_perform_bind (Prod.ext h rfl)
  cases hget
  obtain ⟨_, d₂, hcheck, h⟩ := ok_of_perform_bind h
  have hcycle : checkGroupings d₀ tasks.uses = .ok () ∧ d₂ = d₀ := by
    cases hc : checkGroupings d₀ tasks.uses with
    | error f => rw [hc] at hcheck; cases hcheck
    | ok => rw [hc] at hcheck; cases hcheck; exact ⟨rfl, rfl⟩
  obtain ⟨hcycle, rfl⟩ := hcycle
  obtain ⟨_, d, hinfer, h⟩ := ok_of_perform_bind h
  obtain ⟨_, d', hdev, h⟩ := ok_of_perform_bind h
  obtain ⟨ms, d'', hfreeze, h⟩ := ok_of_perform_bind h
  cases h
  exact ⟨hcycle, d, d', hinfer, hdev, by rw [hfreeze]⟩

theorem exists_builds {sources : List ParsedSource} {config : BuildConfig} {schema : Schema}
    (h : buildSchema sources config = .ok schema) : ∃ modules w, Builds sources config modules w schema := by
  unfold buildSchema at h
  cases hr : Phase.sourcePreLinkage.run (collectSources sources) with
  | error f => rw [hr] at h; cases h
  | ok r =>
    rw [hr] at h
    cases horder : Phase.linkage.run r.link with
    | error f => simp only [bind, Except.bind, horder] at h; cases h
    | ok order =>
      simp only [bind, Except.bind, horder] at h
      split at h
      · cases h
      split at h
      · cases h
      next x hdeclared =>
      rw [Phase.run_eq_ok] at hr horder hdeclared
      exact ⟨x.1, x.2, ⟨r, order, hr, horder, hdeclared⟩, Phase.run_eq_ok.1 h⟩

namespace Builds

variable {sources : List ParsedSource} {config : BuildConfig} {modules : List ModuleId} {w : Workspace}
  {schema : Schema}

theorem sane (h : Builds sources config modules w schema) : w.Declared modules := by
  obtain ⟨r, order, -, -, hdeclared⟩ := h.declared
  exact gives_declareModules r config order modules w hdeclared

/-- All tasks are carried out, the deviations are applied, and the modules are frozen. -/
theorem exists_inferred (h : Builds sources config modules w schema) :
    checkGroupings w.draft w.tasks.uses = .ok () ∧ ∃ d d',
      (infer w.tasks).perform w.draft = (.ok ⟨⟩, d) ∧
      (applyDeviations w.tasks.deviations).perform d = (.ok ⟨⟩, d') ∧
      ((modules.mapM freezeModule).perform d').1 = .ok schema.modules :=
  parts_of_effectiveModel h.model

theorem acyclic (h : Builds sources config modules w schema) :
    checkGroupings w.draft w.tasks.uses = .ok () := h.exists_inferred.1

end Builds

/-- The way of a build: from the declared modules the inference comes to `d`, the deviations make `d'` of
it, and this is frozen. -/
structure Builds.Course (sources : List ParsedSource) (config : BuildConfig) (modules : List ModuleId)
    (w : Workspace) (d d' : Draft) (schema : Schema) : Prop
    extends Builds sources config modules w schema where
  infer : (infer w.tasks).perform w.draft = (.ok ⟨⟩, d)
  deviate : (applyDeviations w.tasks.deviations).perform d = (.ok ⟨⟩, d')
  freeze : ((modules.mapM freezeModule).perform d').1 = .ok schema.modules

namespace Builds.Course

variable {sources : List ParsedSource} {config : BuildConfig} {modules : List ModuleId} {w : Workspace}
  {d d' : Draft} {schema : Schema} (h : Course sources config modules w d d' schema)
include h

theorem exists_moves : ∃ ms, Run (w.tasks.stage w.draft) ms ⟨[], [], d⟩ :=
  (ends_infer (h.sane.from h.acyclic).toReady).of_ok h.infer

theorem follows : w.draft.Follows d := by
  obtain ⟨ms, hrun⟩ := h.exists_moves
  exact (hrun.from (h.sane.from h.acyclic)).follows

/-- Small edits lead from what was declared to what the inference comes to. -/
theorem strokes : (w.tasks.stage w.draft).Strokes w.draft d := by
  obtain ⟨ms, hrun⟩ := h.exists_moves
  exact hrun.strokes (h.sane.from h.acyclic)

theorem pruned : Pruned d d' :=
  (endsPruned_applyDeviations w.tasks.deviations h.follows.sound).of_ok h.deviate

theorem snapshots : List.Forall₂ d'.ModuleSnapshot modules schema.modules :=
  forall₂_moduleSnapshot h.pruned.sound.unfrozen h.freeze

end Builds.Course

section

variable {sources : List ParsedSource} {config : BuildConfig} {modules : List ModuleId} {w : Workspace}
  {schema : Schema}

theorem Builds.exists_course (h : Builds sources config modules w schema) :
    ∃ d d', Builds.Course sources config modules w d d' schema := by
  obtain ⟨-, d, d', hinfer, hdeviate, hfreeze⟩ := h.exists_inferred
  exact ⟨d, d', h, hinfer, hdeviate, hfreeze⟩

/-- Without deviations the schema is frozen from what the run comes to. -/
theorem Builds.exists_frozen_run (h : Builds sources config modules w schema)
    (hdev : w.tasks.deviations = []) : ∃ ms d, Run (w.tasks.stage w.draft) ms ⟨[], [], d⟩ ∧
      Frozen w.draft d modules schema := by
  obtain ⟨d, d', hcourse⟩ := h.exists_course
  obtain ⟨ms, hrun⟩ := hcourse.exists_moves
  have hdeviate := hcourse.deviate
  rw [hdev, applyDeviations_nil] at hdeviate
  obtain rfl : d = d' := (Prod.mk.inj hdeviate).2
  exact ⟨ms, d, hrun, hcourse.follows, hcourse.snapshots, h.sane.mem_modules, h.sane.identities⟩

theorem exists_course (h : buildSchema sources config = .ok schema) :
    ∃ modules w d d', Builds.Course sources config modules w d d' schema := by
  obtain ⟨modules, w, hbuilds⟩ := exists_builds h
  exact ⟨modules, w, hbuilds.exists_course⟩

end

end YangSchema
