import YangSchema.Proofs.Declaration.Module
import YangSchema.Proofs.Inference.Cycle
import YangSchema.Proofs.Inference.Deviations
import YangSchema.Proofs.Inference.Infer

/-!
# Bodies are copied when they are final

From the declared modules on, no body changes any more once it was copied: not by the expansions and
merges that follow, in whatever order these are carried out, not by the one that fails in the end,
and not by deviations (`sameBody_of_copies`).
-/

namespace YangSchema

open Draft Edit Declare

/-- What is left to do after the declaration stands where it says. -/
theorem Workspace.Sane.lexical {w : Workspace} (h : w.Sane)
    (hcycle : checkGroupings w.draft w.tasks.uses = .ok ()) :
    (w.tasks.stage w.draft).Lexical where
  sound := h.sound
  fits t ht := (h.uses t ht).toFits
  owner t ht b hb := ((h.uses t ht).owner b hb).1
  inner t ht a ha := ((h.uses t ht).inner a ha).1
  acyclic _ ht _ hg := innermostGrouping_ne_of_checkGroupings hcycle ht hg
  augment_lt t ht := (h.augments t (List.mem_mergeSort.1 ht)).lt

/-- Drafts that a build comes to when, at the stage `S`, it tries the move `m`: the attempt fails, or
it succeeds and more attempts follow, and deviations when all tasks are carried out. -/
inductive Stage.Later (S : Stage) (m : Move) : Draft → Prop
  | broken {f : Fault} {d : Draft} (h : Breaks S m f d) : S.Later m d
  | run {S' S'' : Stage} {ms : List Move} (h : Step S m S') (hr : Run S' ms S'') : S.Later m S''.draft
  | failed {S' : Stage} {f : Fault} {d : Draft} (h : Step S m S') (hf : S'.Fails f d) : S.Later m d
  | deviated {S' : Stage} {ms : List Move} {d : Draft} (h : Step S m S') (hr : Run S' ms ⟨[], [], d⟩)
    (deviations : List DeviationTask) : S.Later m ((applyDeviations deviations).perform d).2

theorem Stage.Settled.later {S : Stage} {b : Owner} {m : Move} {d : Draft} (hS : S.Ready)
    (hb : S.Settled b) (h : S.Later m d) : SameBody b S.draft d := by
  cases h with
  | broken h =>
    obtain ⟨s, hat, hch⟩ := h.at hS
    exact hb.sameBody hat hch
  | run h hr => exact (hb.run hS (.cons h hr)).1
  | failed h hf => exact hb.fails hS (hf.after (.cons h (.nil _)))
  | @deviated S' ms d h hr deviations =>
    have hrun := Run.cons h hr
    obtain ⟨hsame, hb'⟩ := hb.run hS hrun
    have hdev : SameBodies d ((applyDeviations deviations).perform d).2 :=
      (ends_applyDeviations deviations (hrun.ready hS).sound).draft
    exact hsame.trans (hdev.bodies b hb'.augment_lt)

/-- A build that has declared its modules performs a run of expansions and merges, and a body that is
copied anywhere in such a run stays as it is. -/
theorem sameBody_of_copies {r : Registry} {config : BuildConfig} {order : List Source}
    {modules : List ModuleId} {w : Workspace}
    (hdeclared : (declareModules r config order).run {} = .ok (modules, w))
    (hcycle : checkGroupings w.draft w.tasks.uses = .ok ()) :
    (Ends (infer w.tasks) w.draft
      (fun _ d => ∃ ms, Run (w.tasks.stage w.draft) ms ⟨[], [], d⟩)
      fun f d => (w.tasks.stage w.draft).Fails f d ∨
        ∃ ms S, Run (w.tasks.stage w.draft) ms S ∧ S.draft = d) ∧
    ∀ ms S, Run (w.tasks.stage w.draft) ms S → ∀ m b, S.Copies m b →
      ∀ d, S.Later m d → SameBody b S.draft d := by
  have hsane : w.Sane := (gives_declareModules r config order modules w hdeclared).toSane
  have hstart := hsane.lexical hcycle
  refine ⟨(ends_infer hstart.toReady).mono (fun _ _ h => h) fun f d h => ?_, ?_⟩
  · rcases h with h | ⟨ms, S, hr, -, hd, -⟩
    · exact .inl h
    · exact .inr ⟨ms, S, hr, hd⟩
  · intro ms S hr m b hcopies d hd
    have hS := hr.lexical hstart
    exact (hcopies.settled hS).later hS.toReady hd

/-! ## An example -/

/-- A module with a grouping of one leaf, and a uses of it at the top. -/
def leafSource : Source where
  label := "m.yang"
  kind := .module
  name := "m"
  namespaceUri := some "urn:m"
  parent := none
  ownPrefix := "m"
  revision := none
  header := {}
  imports := []
  includes := []
  root := {
    keyword := .word .moduleWord
    argument := some "m"
    children := [
      { keyword := .word .grouping, argument := some "g"
        children := [{ keyword := .word .leaf, argument := some "x" }] },
      { keyword := .word .uses, argument := some "g" }] }

/-- The one uses of the module is expanded, and the grouping with its leaf stays as it is. -/
theorem sameBody_leafSource :
    ∃ modules w t, (declareModules .empty {} [leafSource]).run {} = .ok (modules, w) ∧
      w.tasks.uses = [t] ∧ (w.draft.childrenOf (.grouping ⟨0⟩)).length = 1 ∧
      ((t.attempt []).perform w.draft).1 = .ok .applied ∧
      SameBody (.grouping ⟨0⟩) w.draft ((t.attempt []).perform w.draft).2 := by
  have hcheck : (((declareModules .empty {} [leafSource]).run {}).toOption.any fun x =>
      (only? x.2.tasks.uses).any fun t =>
        decide (checkGroupings x.2.draft [t] = .ok () ∧ t.resolve x.2.draft = some ⟨0⟩ ∧
          (x.2.draft.usesOf t.uses).augmentations = [] ∧
          (x.2.draft.childrenOf (.grouping ⟨0⟩)).length = 1 ∧
          ((t.attempt []).perform x.2.draft).1 = .ok .applied)) = true := by decide +kernel
  simp only [Option.any_eq_true, toOption_eq_some, only?_eq_some, decide_eq_true_eq] at hcheck
  obtain ⟨⟨modules, w⟩, hdeclared, t, huses, hcycle, hresolve, haug, hlength, happlied⟩ := hcheck
  refine ⟨modules, w, t, hdeclared, huses, hlength, happlied, ?_⟩
  have hall : w.tasks.uses = [] ++ t :: [] := huses
  rw [← huses] at hcycle
  have hperform : (t.attempt (([] ++ []).flatMap UsesTask.occupies)).perform w.draft =
      (.ok .applied, ((t.attempt []).perform w.draft).2) := Prod.ext happlied rfl
  have hstep : Step ⟨[] ++ t :: [], (w.tasks.stage w.draft).augments, w.draft⟩ (.expand t) _ :=
    .expand hperform
  rw [← hall] at hstep
  refine (sameBody_of_copies hdeclared hcycle).2 [] _ (.nil _) (.expand t) (.grouping ⟨0⟩)
    (.grouping hall (fun hwaits => ?_) hresolve) _ (.run hstep (.nil _))
  rcases hwaits _ hresolve with h | ⟨a, ha, -⟩
  · cases h
  · replace ha : a ∈ (w.draft.usesOf t.uses).augmentations := ha
    rw [haug] at ha
    cases ha

end YangSchema
