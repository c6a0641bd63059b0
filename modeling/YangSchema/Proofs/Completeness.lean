import YangSchema.Proofs.Finality
import YangSchema.Proofs.Inference.Confluence

/-!
# The inference is complete

The inference ends, and if it succeeds it has carried out every task once.  If it reports that the
target of an augmentation is missing then all uses are expanded, and no other order of the tasks
would have brought the target (`infer_complete`).
-/

namespace YangSchema

open Draft Edit Declare

theorem Workspace.Sane.regular {w : Workspace} (h : w.Sane) : w.draft.Regular w.draft where
  paths _ _ t _ c hc := h.paths t c hc
  cases _ _ i _ hi := by
    obtain ⟨c, -, hc⟩ := h.shorthands i hi
    exact ⟨c, hc⟩
  unwrapped _ _ t _ ht c hc := h.unwrapped t ht c hc

theorem Workspace.Sane.from {w : Workspace} (h : w.Sane)
    (hcycle : checkGroupings w.draft w.tasks.uses = .ok ()) :
    (w.tasks.stage w.draft).From w.draft where
  toLexical := h.lexical hcycle
  start := h.sound
  follows := .refl h.sound h.regular h.named
  stands := h.uses
  declared t ht := (h.augments t (List.mem_mergeSort.1 ht)).lt

/-- The moves for all tasks. -/
def Tasks.moves (tasks : Tasks) : List Move :=
  tasks.uses.map .expand ++ tasks.augments.map .merge

/-- A run that leaves nothing carries out every task once. -/
theorem Run.perm_moves {tasks : Tasks} {d d' : Draft} {ms : List Move}
    (h : Run (tasks.stage d) ms ⟨[], [], d'⟩) : ms.Perm tasks.moves := by
  have hperm := h.perm
  rw [List.map_nil, List.map_nil, List.append_nil, List.append_nil] at hperm
  refine hperm.symm.trans ?_
  exact ((List.mergeSort_perm _ _).map Move.merge).append_left _

/-- From declared modules the inference performs a run, and never goes round in a circle.  A run that
succeeds carries out every task once.  A run that ends with the report of a missing target, which is
the target of some augmentation, leaves no uses; and the target is there after no run whatever. -/
theorem infer_complete {r : Registry} {config : BuildConfig} {order : List Source}
    {modules : List ModuleId} {w : Workspace}
    (hdeclared : (declareModules r config order).run {} = .ok (modules, w))
    (hcycle : checkGroupings w.draft w.tasks.uses = .ok ()) :
    Ends (infer w.tasks) w.draft
      (fun _ d => ∃ ms, Run (w.tasks.stage w.draft) ms ⟨[], [], d⟩ ∧ ms.Perm w.tasks.moves)
      fun f d => (∀ id, f.cause ≠ .nestedInItself id) ∧
        ∀ target : SchemaPath, target.absolute = true →
          f.cause = .unresolved "augment target" target.render →
          ∃ t ∈ w.tasks.augments, t.target.render = target.render ∧
            f = (Fault.unresolved "augment target" t.target.render).locate t.trace ∧
            (∃ ms augments, Run (w.tasks.stage w.draft) ms ⟨[], augments, d⟩ ∧ t ∈ augments) ∧
            d.findDataNode t.target = none ∧
            ∀ ms S, Run (w.tasks.stage w.draft) ms S → S.draft.findDataNode t.target = none := by
  have hsane : w.Sane := (gives_declareModules r config order modules w hdeclared).toSane
  have hstart := hsane.from hcycle
  refine (ends_infer hstart.toReady).mono ?_ ?_
  · rintro _ d ⟨ms, hr⟩
    exact ⟨ms, hr, hr.perm_moves⟩
  rintro f d (⟨ms, S, m, f', hr, hbreaks, rfl⟩ | ⟨ms, S, hr, hstuck, rfl, hreports⟩)
  · -- an attempt has failed
    have hf : f'.OfAttempt := hbreaks.ofAttempt (hr.ready hstart.toReady)
    refine ⟨(hf.locate m.trace).ends, fun target habs hcause => ?_⟩
    exact absurd hcause ((hf.locate m.trace).no_target target habs)
  cases hreports with
  | uses h =>
    refine ⟨fun id hid => (by cases hid), fun target habs hcause => ?_⟩
    have hwhat : ("grouping" : String) ≠ "augment target" := by decide
    exact absurd (Cause.unresolved.inj hcause).1 hwhat
  | @augments t rest huses h =>
    refine ⟨fun id hid => (by cases hid), fun target habs hcause => ?_⟩
    have ht : t ∈ S.augments := by rw [h]; exact List.mem_cons_self
    have hnone := hstuck.findDataNode_eq_none huses ht
    refine ⟨t, ?_, (Cause.unresolved.inj hcause).2, rfl, ⟨ms, S.augments, ?_, ht⟩, hnone, ?_⟩
    · exact List.mem_mergeSort.1 (hr.augments_subset ht)
    · rw [← huses]
      exact hr
    · intro ms' S' hr'
      exact Run.findDataNode_eq_none hstart hr hstuck huses hr' hnone

/-! ## An example -/

/-- A module that augments a node that is nowhere. -/
def strandedSource : Source where
  label := "m.yang"
  kind := .module
  name := "m"
  namespaceUri := some "urn:m"
  parent := none
  ownPrefix := "m"
  revision := none
  header := {}
  imports := []
  includes := []
  root := {
    keyword := .word .moduleWord
    argument := some "m"
    children := [
      { keyword := .word .augment, argument := some "/m:c"
        children := [{ keyword := .word .leaf, argument := some "x" }] }] }

/-- The target of the augmentation is reported, and no run brings it. -/
theorem infer_complete_strandedSource :
    ∃ modules w t f, (declareModules .empty {} [strandedSource]).run {} = .ok (modules, w) ∧
      w.tasks.augments = [t] ∧ ((infer w.tasks).perform w.draft).1 = .error f ∧
      f.cause = .unresolved "augment target" "/c" ∧
      ∀ ms S, Run (w.tasks.stage w.draft) ms S → S.draft.findDataNode t.target = none := by
  have hcheck : (((declareModules .empty {} [strandedSource]).run {}).toOption.any fun x =>
      (only? x.2.tasks.augments).any fun t =>
        (fault? ((infer x.2.tasks).perform x.2.draft).1).any fun f =>
          decide (x.2.tasks.uses = [] ∧ checkGroupings x.2.draft [] = .ok () ∧
            t.target.absolute = true ∧ t.target.render = "/c" ∧
            f.cause = .unresolved "augment target" "/c")) = true := by decide +kernel
  simp only [Option.any_eq_true, toOption_eq_some, fault?_eq_some, only?_eq_some,
    decide_eq_true_eq] at hcheck
  obtain ⟨⟨modules, w⟩, hdeclared, t, ht, f, hf, huses, hcycle, habs, hrender, hcause⟩ := hcheck
  refine ⟨modules, w, t, f, hdeclared, ht, hf, hcause, ?_⟩
  rw [← huses] at hcycle
  obtain ⟨-, hmissing⟩ := (infer_complete hdeclared hcycle).of_error (Prod.ext hf rfl)
  obtain ⟨u, hu, -, -, -, -, hnone⟩ := hmissing t.target habs (hrender ▸ hcause)
  rw [ht] at hu
  obtain rfl := List.mem_singleton.1 hu
  exact hnone

end YangSchema
