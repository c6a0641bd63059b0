import YangSchema.Proofs.Inference.Stage

/-!
# The inference as a whole

The inference starts with all tasks, the augmentations in the order of their targets (`Tasks.stage`),
and performs a run.  It succeeds if the run leaves no task behind.  Otherwise an attempt has failed,
or all tasks that are left are held back, and the first of them is reported (`ends_infer`).
-/

namespace YangSchema

open Draft Edit

/-- Everything is left to do. -/
def Tasks.stage (tasks : Tasks) (d : Draft) : Stage where
  uses := tasks.uses
  augments := tasks.augments.mergeSort fun a b => (a.applyOrder b).isLE
  draft := d

/-- The fault that names the first task that is left. -/
inductive Stage.Reports (S : Stage) : Fault → Prop
  | uses {t : UsesTask} {rest : List UsesTask} (h : S.uses = t :: rest) :
    S.Reports ((Fault.unresolved "grouping" t.grouping.render).locate t.trace)
  | augments {t : AugmentTask} {rest : List AugmentTask} (huses : S.uses = [])
    (h : S.augments = t :: rest) :
    S.Reports ((Fault.unresolved "augment target" t.target.render).locate t.trace)

/-- The inference that succeeds carries out all tasks in passes. -/
theorem ends_infer_passes {tasks : Tasks} {d : Draft} (hS : (tasks.stage d).Ready) :
    Ends (infer tasks) d (fun _ d' => ∃ ms, Passes (tasks.stage d) ms ⟨[], [], d'⟩) fun f d' =>
      (tasks.stage d).Fails f d' ∨
        ∃ ms S, Run (tasks.stage d) ms S ∧ S.Stuck ∧ S.draft = d' ∧ S.Reports f := by
  unfold infer
  rw [ends_bind]
  refine (ends_settle _ _ d hS).mono ?_ fun f d' h => .inl h
  rintro ⟨uses, augments⟩ d' ⟨⟨ms, hpasses⟩, hstuck⟩
  have hr := hpasses.run
  cases uses with
  | cons t rest => exact .inr ⟨ms, _, hr, hstuck, rfl, .uses rfl⟩
  | nil =>
    cases augments with
    | cons t rest => exact .inr ⟨ms, _, hr, hstuck, rfl, .augments rfl rfl⟩
    | nil => exact ⟨ms, hpasses⟩

theorem ends_infer {tasks : Tasks} {d : Draft} (hS : (tasks.stage d).Ready) :
    Ends (infer tasks) d (fun _ d' => ∃ ms, Run (tasks.stage d) ms ⟨[], [], d'⟩) fun f d' =>
      (tasks.stage d).Fails f d' ∨
        ∃ ms S, Run (tasks.stage d) ms S ∧ S.Stuck ∧ S.draft = d' ∧ S.Reports f :=
  (ends_infer_passes hS).mono (fun _ _ ⟨ms, hpasses⟩ => ⟨ms, hpasses.run⟩) fun _ _ h => h

end YangSchema
