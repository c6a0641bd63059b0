import YangSchema.Proofs.Deadlock
import YangSchema.Proofs.DeviationTargets

/-!
# Which missing grouping is reported

When the inference can go no further, it reports the first uses that is left as one whose grouping is
missing.  What is left are the uses that hang (`Stage.Stuck.uses_eq`), and not only those whose grouping
is missing: a uses hangs as well if it waits for one.  So the grouping that is reported is missing only
if no uses that waits stands before the missing ones (`firstHanging_reported`).
-/

namespace YangSchema

open Draft Edit

section

variable {sources : List ParsedSource} {config : BuildConfig} {modules : List ModuleId} {w : Workspace}
  {d' : Draft} {f : Fault}

/-- A build fails as its inference does. -/
theorem buildSchema_eq_error_of_infer (h : declaredModules sources config = .ok (modules, w))
    (hcycle : checkGroupings w.draft w.tasks.uses = .ok ⟨⟩)
    (hinfer : (infer w.tasks).perform w.draft = (.error f, d')) :
    buildSchema sources config = .error ⟨.effectiveModel, f⟩ := by
  refine buildSchema_eq_error_of_effectiveModel h ?_
  unfold effectiveModel
  rw [perform_bind_of_ok (perform_get _), perform_bind_of_ok (perform_checkGroupings hcycle),
    perform_bind_of_error hinfer]

/-- The first of the tasks that hang. -/
structure UsesTask.FirstHanging (d : Draft) (tasks : List UsesTask) (t : UsesTask) : Prop where
  hangs : t.Hangs d tasks
  first : ∃ pre post, tasks = pre ++ t :: post ∧ ∀ u ∈ pre, ¬ u.Hangs d tasks

/-- The first that hangs finds no grouping exactly if among the tasks before some that finds none there
are only such that hang and find none themselves. -/
theorem UsesTask.FirstHanging.resolve_eq_none_iff {d : Draft} {tasks : List UsesTask} {t : UsesTask}
    (h : t.FirstHanging d tasks) : t.resolve d = none ↔ ∃ pre u post, tasks = pre ++ u :: post ∧
      u.resolve d = none ∧ ∀ v ∈ pre, v.Hangs d tasks → v.resolve d = none := by
  obtain ⟨hhangs, pre, post, hl, hfirst⟩ := h
  constructor
  · exact fun hnone => ⟨pre, t, post, hl, hnone, fun v hv hhang => absurd hhang (hfirst v hv)⟩
  · rintro ⟨pre', u, post', hl', hnone, hbefore⟩
    have hu : u.Hangs d tasks := ⟨by simp [hl'], u, .refl, .inl hnone⟩
    rw [hl, List.append_eq_append_iff] at hl'
    rcases hl' with ⟨mid, rfl, hrest⟩ | ⟨mid, rfl, hrest⟩
    · cases mid with
      | nil =>
        rw [(List.cons.inj hrest).1]
        exact hnone
      | cons x mid =>
        obtain rfl := (List.cons.inj hrest).1
        exact hbefore _ (by simp) hhangs
    · cases mid with
      | nil =>
        rw [← (List.cons.inj hrest).1]
        exact hnone
      | cons x mid =>
        obtain rfl := (List.cons.inj hrest).1
        exact absurd hu (hfirst _ (by simp))

/-- The inference of a build succeeds only if no uses hangs, and a build fails as its inference does.  The
uses that is reported, when some are left, is the first of those that hang, with its own place.  Its
grouping may be there: then it waits for another one that hangs. -/
theorem firstHanging_reported (hdeclared : declaredModules sources config = .ok (modules, w))
    (hcycle : checkGroupings w.draft w.tasks.uses = .ok ⟨⟩) :
    Ends (infer w.tasks) w.draft (fun _ _ => ∀ t : UsesTask, ¬ t.Hangs w.draft w.tasks.uses)
      fun f _ => buildSchema sources config = .error ⟨.effectiveModel, f⟩ ∧
        ((∃ text, f.cause = .unresolved "grouping" text) → ∃ t : UsesTask,
          f = (Fault.unresolved "grouping" t.grouping.render).locate t.trace ∧
          t.FirstHanging w.draft w.tasks.uses ∧
          (t.resolve w.draft = none ∨
            ∃ u : UsesTask, u.Hangs w.draft w.tasks.uses ∧ u ≠ t ∧ t.Awaits w.draft u) ∧
          (t.resolve w.draft = none ↔ ∃ (pre : List UsesTask) (u : UsesTask) (post : List UsesTask),
            w.tasks.uses = pre ++ u :: post ∧ u.resolve w.draft = none ∧
              ∀ v ∈ pre, v.Hangs w.draft w.tasks.uses → v.resolve w.draft = none)) := by
  classical
  have hstart := (sane_of_declaredModules hdeclared).from hcycle
  refine ((ends_infer hstart.toReady).and (ends_self _ _)).mono ?_ ?_
  · rintro _ d ⟨⟨ms, hr⟩, -⟩ t ht
    have hleft : [] = w.tasks.uses.filter fun t => t.Hangs w.draft w.tasks.uses :=
      Stage.Stuck.uses_eq hstart hr ⟨by simp, by simp⟩
    have hmem : t ∈ w.tasks.uses.filter fun t => t.Hangs w.draft w.tasks.uses :=
      List.mem_filter.2 ⟨ht.1, decide_eq_true ht⟩
    rw [← hleft] at hmem
    cases hmem
  · rintro f d ⟨hfails | ⟨ms, S, hr, hstuck, rfl, hreports⟩, hinfer⟩
    · refine ⟨buildSchema_eq_error_of_infer hdeclared hcycle hinfer, ?_⟩
      rintro ⟨text, hf⟩
      obtain ⟨ms, S, m, f', hr, hbreaks, rfl⟩ := hfails
      have hattempt : f'.OfAttempt := hbreaks.ofAttempt (hr.ready hstart.toReady)
      exact absurd hf ((hattempt.locate m.trace).no_grouping text)
    · refine ⟨buildSchema_eq_error_of_infer hdeclared hcycle hinfer, ?_⟩
      rintro ⟨text, hf⟩
      cases hreports with
      | @uses t rest h =>
        have hleft := hstuck.uses_eq hstart hr
        rw [h, eq_comm, List.filter_eq_cons_iff] at hleft
        obtain ⟨pre, post, hl, hpre, ht, -⟩ := hleft
        have hhangs : t.Hangs w.draft w.tasks.uses := of_decide_eq_true ht
        have hfirst : t.FirstHanging w.draft w.tasks.uses :=
          ⟨hhangs, pre, post, hl, fun u hu hhang => hpre u hu (decide_eq_true hhang)⟩
        exact ⟨t, rfl, hfirst, hstart.hangs_cases hhangs, hfirst.resolve_eq_none_iff⟩
      | augments _ h =>
        have hwhat : ("augment target" : String) ≠ "grouping" := by decide
        exact absurd (Cause.unresolved.inj hf).1 hwhat

end

/-! ## An example -/

/-- A module with a grouping that uses another one, which uses one that is missing. -/
def missingSource : ParsedSource where
  label := "m.yang"
  root := .ok {
    keyword := .word .moduleWord
    argument := some "m"
    children := [
      { keyword := .word .namespaceWord, argument := some "urn:m" },
      { keyword := .word .prefixWord, argument := some "m" },
      { keyword := .word .grouping, argument := some "g"
        children := [{ keyword := .word .uses, argument := some "h" }] },
      { keyword := .word .grouping, argument := some "h"
        children := [{ keyword := .word .uses, argument := some "missing" }] }] }

/-- The uses of the second grouping is reported as one whose grouping is missing, though that grouping is
there, and another uses is left whose grouping is not. -/
theorem firstHanging_reported_missingSource :
    ∃ (modules : List ModuleId) (w : Workspace) (t u : UsesTask),
      declaredModules [missingSource] {} = .ok (modules, w) ∧
      checkGroupings w.draft w.tasks.uses = .ok ⟨⟩ ∧
      u ∈ w.tasks.uses ∧ u.resolve w.draft = none ∧
      t.grouping.render = "(urn:m)h" ∧ t.resolve w.draft ≠ none ∧
      t.FirstHanging w.draft w.tasks.uses ∧
      buildSchema [missingSource] {} =
        .error ⟨.effectiveModel, (Fault.unresolved "grouping" t.grouping.render).locate t.trace⟩ := by
  have hcheck : ((declaredModules [missingSource] {}).toOption.any fun x =>
      (fault? ((infer x.2.tasks).perform x.2.draft).1).any fun f =>
        decide (checkGroupings x.2.draft x.2.tasks.uses = .ok ⟨⟩ ∧
          f.cause = .unresolved "grouping" "(urn:m)h" ∧
          ∀ t ∈ x.2.tasks.uses, t.grouping.render = "(urn:m)h" → t.resolve x.2.draft ≠ none) &&
        x.2.tasks.uses.any fun u => decide (u.resolve x.2.draft = none)) = true := by
    decide +kernel
  simp only [Option.any_eq_true, toOption_eq_some, fault?_eq_some, Bool.and_eq_true,
    List.any_eq_true, decide_eq_true_eq] at hcheck
  obtain ⟨⟨modules, w⟩, hdeclared, f, hf, ⟨hcycle, hcause, hthere⟩, u, hu, hnone⟩ := hcheck
  obtain ⟨hbuild, hreported⟩ :=
    (firstHanging_reported hdeclared hcycle).of_error (Prod.ext hf rfl)
  obtain ⟨t, rfl, hfirst, -, -⟩ := hreported ⟨_, hcause⟩
  have hname : t.grouping.render = "(urn:m)h" := (Cause.unresolved.inj hcause).2
  exact ⟨modules, w, t, u, hdeclared, hcycle, hu, hnone, hname, hthere t hfirst.hangs.1 hname, hfirst,
    hbuild⟩

end YangSchema
