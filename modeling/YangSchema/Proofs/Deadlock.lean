import Mathlib.Data.Set.Finite.Basic
import YangSchema.Proofs.Completeness

/-!
# Uses that wait for one another

A uses waits for those that stand in the grouping it names, and for those that stand in one of its
own augmentations (`UsesTask.Awaits`).  Who waits for whom is settled by the declaration: nothing that
is carried out later changes it.  A uses hangs if its grouping is not there, if it waits for others in a
circle, or if it waits for one that hangs (`UsesTask.Hangs`).  A run that has come to its end has left
just those, in their order (`Stage.Stuck.uses_eq`).  So where all groupings are there it can expand all
uses exactly if no uses wait for one another in a circle (`Stage.Stuck.uses_eq_nil_iff`).

The check for circular groupings looks at the uses in the bodies of groupings only.  It rules out a
circle unless a uses stands in the augmentation of another one, and in a grouping that the other one
does not stand in (`exists_nested_of_deadlocked`): there the check misses that the other one waits, and
there are such circles (`deadlocked_knotSource`).
-/

namespace YangSchema

open Draft Edit

/-! ## Who waits for whom -/

/-- `t` cannot be expanded before `u`: that is in a body that the expansion of `t` copies. -/
def UsesTask.Awaits (d : Draft) (t u : UsesTask) : Prop :=
  (∃ g, t.resolve d = some g ∧ .grouping g ∈ u.occupies) ∨
    ∃ a ∈ (d.usesOf t.uses).augmentations, Owner.augment a ∈ u.occupies

/-- Some of the uses wait for one another in a circle. -/
def Deadlocked (d : Draft) (tasks : List UsesTask) : Prop :=
  ∃ t ∈ tasks, Relation.TransGen (fun t u => u ∈ tasks ∧ t.Awaits d u) t t

/-- `t` can never be expanded: from it a chain of waiting leads to a uses whose grouping is not there, or
to a circle. -/
def UsesTask.Hangs (d : Draft) (tasks : List UsesTask) (t : UsesTask) : Prop :=
  t ∈ tasks ∧ ∃ u, Relation.ReflTransGen (fun t u => u ∈ tasks ∧ t.Awaits d u) t u ∧
    (u.resolve d = none ∨ Relation.TransGen (fun t u => u ∈ tasks ∧ t.Awaits d u) u u)

section Waiting

variable {d d₀ : Draft} {t u : UsesTask} {tasks : List UsesTask}

/-- A uses that can be expanded waits if one that it awaits is busy. -/
theorem UsesTask.Awaits.waits (h : t.Awaits d u) {busy : List UsesTask} (hu : u ∈ busy) :
    t.Waits (busy.flatMap UsesTask.occupies) d := by
  intro g hg
  rcases h with ⟨g', hg', hocc⟩ | ⟨a, ha, hocc⟩
  · rw [hg] at hg'
    cases hg'
    exact .inl (List.mem_flatMap.2 ⟨u, hu, hocc⟩)
  · exact .inr ⟨a, ha, List.mem_flatMap.2 ⟨u, hu, hocc⟩⟩

/-- Whoever waits with its grouping there awaits one that is busy. -/
theorem UsesTask.Waits.exists_awaits {busy : List UsesTask} {g : GroupingId}
    (h : t.Waits (busy.flatMap UsesTask.occupies) d) (hg : t.resolve d = some g) :
    ∃ u ∈ busy, t.Awaits d u := by
  rcases h g hg with h | ⟨a, ha, h⟩
  · obtain ⟨u, hu, hocc⟩ := List.mem_flatMap.1 h
    exact ⟨u, hu, .inl ⟨g, hg, hocc⟩⟩
  · obtain ⟨u, hu, hocc⟩ := List.mem_flatMap.1 h
    exact ⟨u, hu, .inr ⟨a, ha, hocc⟩⟩

theorem UsesTask.grouping_mem_occupies {g : GroupingId} (h : .grouping g ∈ t.occupies) :
    t.innermostGrouping = some g := by
  unfold occupies at h
  simpa using h

theorem UsesTask.augment_mem_occupies {a : AugmentId} (h : .augment a ∈ t.occupies) :
    .augment a ∈ t.enclosing := by
  unfold occupies at h
  simpa using h

/-- Nothing that is carried out changes who waits for whom. -/
theorem Stage.From.awaits_iff {S : Stage} (hS : S.From d₀) (ht : t ∈ S.uses) :
    t.Awaits S.draft u ↔ t.Awaits d₀ u := by
  unfold UsesTask.Awaits
  rw [hS.follows.resolve, hS.follows.augmentations t.uses (hS.stands t ht).uses]

/-- Tasks that find no grouping, or await another one of them, all stay: a step carries out none of
them. -/
theorem Step.filter_uses {S S' : Stage} {m : Move} (hS : S.From d₀) (h : Step S m S')
    {p : UsesTask → Bool} (hsub : ∀ t, p t = true → t ∈ S.uses)
    (hp : ∀ t, p t = true → t.resolve d₀ = none ∨ ∃ u, p u = true ∧ u ≠ t ∧ t.Awaits d₀ u) :
    S'.uses.filter p = S.uses.filter p := by
  rcases h.cases hS.toReady with
    ⟨pre, v, post, g, -, huses, huses', -, hwait, -⟩ | ⟨_, _, _, _, -, -, -, huses', -⟩
  · have hv : v ∈ S.uses := by rw [huses]; simp
    suffices hnot : ¬ p v = true by
      rw [huses, huses', List.filter_append, List.filter_append, List.filter_cons_of_neg hnot]
    intro hpv
    refine hwait ?_
    rcases hp v hpv with hnone | ⟨u, hpu, hne, hawaits⟩
    · intro g hg
      rw [hS.follows.resolve, hnone] at hg
      cases hg
    · -- the task that is carried out awaits another one, so it would have to wait
      have hu := hsub u hpu
      rw [huses] at hu
      refine ((hS.awaits_iff hv).2 hawaits).waits ?_
      simp only [List.mem_append, List.mem_cons] at hu ⊢
      tauto
  · rw [huses']

theorem Run.filter_uses {S S' : Stage} {ms : List Move} (hS : S.From d₀) (h : Run S ms S')
    {p : UsesTask → Bool} (hsub : ∀ t, p t = true → t ∈ S.uses)
    (hp : ∀ t, p t = true → t.resolve d₀ = none ∨ ∃ u, p u = true ∧ u ≠ t ∧ t.Awaits d₀ u) :
    S'.uses.filter p = S.uses.filter p := by
  induction h with
  | nil => rfl
  | cons hs _ ih =>
    have hfilter := hs.filter_uses hS hsub hp
    refine (ih (hs.from hS) fun t ht => ?_).trans hfilter
    exact List.mem_of_mem_filter (hfilter ▸ List.mem_filter.2 ⟨hsub t ht, ht⟩)

/-- No uses awaits itself. -/
theorem Stage.From.not_awaits {S : Stage} (hS : S.From d₀) (ht : t ∈ S.uses) :
    ¬ t.Awaits d₀ t := by
  rintro (⟨g, hg, hocc⟩ | ⟨a, ha, hocc⟩)
  · rw [← hS.follows.resolve] at hg
    exact hS.acyclic t ht g hg (UsesTask.grouping_mem_occupies hocc)
  · exact ((hS.stands t ht).inner a ha).1 (UsesTask.augment_mem_occupies hocc)

/-- Among finitely many tasks, each of which awaits another, some wait in a circle. -/
theorem deadlocked_of_forall_awaits (hne : tasks ≠ [])
    (h : ∀ t ∈ tasks, ∃ u ∈ tasks, t.Awaits d u) : Deadlocked d tasks := by
  refine Classical.byContradiction fun hno => ?_
  let R (u t : { t // t ∈ tasks }) : Prop :=
    Relation.TransGen (fun t u => u ∈ tasks ∧ t.Awaits d u) t.1 u.1
  have : Finite { t // t ∈ tasks } := (List.finite_toSet tasks).to_subtype
  have : IsTrans _ R := ⟨fun _ _ _ hab hbc => hbc.trans hab⟩
  have : Std.Irrefl R := ⟨fun t ht => hno ⟨t.1, t.2, ht⟩⟩
  obtain ⟨t, ht⟩ := List.exists_mem_of_ne_nil tasks hne
  -- a chain of waiting would have to end somewhere
  refine (Finite.wellFounded_of_trans_of_irrefl R).induction (C := fun _ => False) ⟨t, ht⟩ ?_
  intro m ih
  obtain ⟨u, hu, hawaits⟩ := h m.1 m.2
  exact ih ⟨u, hu⟩ (.single ⟨hu, hawaits⟩)

/-- Who hangs finds no grouping, or awaits another one that hangs. -/
theorem Stage.From.hangs_cases {S : Stage} (hS : S.From d₀) (h : t.Hangs d₀ S.uses) :
    t.resolve d₀ = none ∨ ∃ u, u.Hangs d₀ S.uses ∧ u ≠ t ∧ t.Awaits d₀ u := by
  have hother : ∀ {u}, u ∈ S.uses → t.Awaits d₀ u → u ≠ t := by
    rintro u hu hawaits rfl
    exact hS.not_awaits hu hawaits
  obtain ⟨ht, v, htv, hv⟩ := h
  rcases Relation.ReflTransGen.cases_head htv with rfl | ⟨u, ⟨hu, hawaits⟩, huv⟩
  · refine hv.imp_right fun hcircle => ?_
    obtain ⟨u, ⟨hu, hawaits⟩, hback⟩ := Relation.TransGen.head'_iff.1 hcircle
    exact ⟨u, ⟨hu, t, hback, .inr hcircle⟩, hother hu hawaits, hawaits⟩
  · exact .inr ⟨u, ⟨hu, v, huv, hv⟩, hother hu hawaits, hawaits⟩

/-- Among tasks that find no grouping, or await another one of them, all hang. -/
theorem hangs_of_forall_awaits {left : List UsesTask} (hsub : left ⊆ tasks)
    (h : ∀ t ∈ left, t.resolve d = none ∨ ∃ u ∈ left, t.Awaits d u) : ∀ t ∈ left, t.Hangs d tasks := by
  classical
  refine fun t ht => by_contra fun hno => ?_
  -- those that do not hang await one another
  have hdead : Deadlocked d (left.filter fun t => ¬ t.Hangs d tasks) := by
    refine deadlocked_of_forall_awaits
      (List.ne_nil_of_mem (List.mem_filter.2 ⟨ht, decide_eq_true hno⟩)) fun v hv => ?_
    obtain ⟨hv, hvno⟩ := List.mem_filter.1 hv
    replace hvno := of_decide_eq_true hvno
    rcases h v hv with hnone | ⟨u, hu, hawaits⟩
    · exact absurd ⟨hsub hv, v, .refl, .inl hnone⟩ hvno
    · refine ⟨u, List.mem_filter.2 ⟨hu, decide_eq_true ?_⟩, hawaits⟩
      rintro ⟨-, x, hux, hx⟩
      exact hvno ⟨hsub hv, x, .head ⟨hsub hu, hawaits⟩ hux, hx⟩
  obtain ⟨v, hv, hcircle⟩ := hdead
  obtain ⟨hv, hvno⟩ := List.mem_filter.1 hv
  refine of_decide_eq_true hvno ⟨hsub hv, v, .refl, .inr ?_⟩
  exact Relation.TransGen.mono (fun _ _ h => ⟨hsub (List.mem_of_mem_filter h.1), h.2⟩) _ _ hcircle

open Classical in
/-- When every task that is left is held back, the uses that are left are those that hang. -/
theorem Stage.Stuck.uses_eq {S₀ S : Stage} {ms : List Move} (h₀ : S₀.From d₀) (hr : Run S₀ ms S)
    (h : S.Stuck) : S.uses = S₀.uses.filter fun t => t.Hangs d₀ S₀.uses := by
  have hS := hr.from h₀
  have hstay := hr.filter_uses h₀ (p := fun t => t.Hangs d₀ S₀.uses)
    (fun t ht => (of_decide_eq_true ht).1) fun t ht => by
      simpa using h₀.hangs_cases (of_decide_eq_true ht)
  rw [← hstay, eq_comm, List.filter_eq_self]
  suffices hall : ∀ t ∈ S.uses, t.resolve d₀ = none ∨ ∃ u ∈ S.uses, t.Awaits d₀ u from
    fun t ht => decide_eq_true (hangs_of_forall_awaits hr.uses_subset hall t ht)
  intro t ht
  obtain ⟨pre, post, hpre⟩ := List.append_of_mem ht
  cases hg : t.resolve d₀ with
  | none => exact .inl rfl
  | some g =>
    rw [← hS.follows.resolve] at hg
    obtain ⟨u, hu, hawaits⟩ := (h.uses pre t post hpre).exists_awaits hg
    refine .inr ⟨u, ?_, (hS.awaits_iff ht).1 hawaits⟩
    rw [hpre]
    simp only [List.mem_append, List.mem_cons] at hu ⊢
    tauto

/-- When every task that is left is held back, and all groupings are there, uses are left exactly if some
wait in a circle. -/
theorem Stage.Stuck.uses_eq_nil_iff {S₀ S : Stage} {ms : List Move} (h₀ : S₀.From d₀)
    (hresolve : ∀ t ∈ S₀.uses, ∃ g, t.resolve d₀ = some g) (hr : Run S₀ ms S) (h : S.Stuck) :
    S.uses = [] ↔ ¬ Deadlocked d₀ S₀.uses := by
  rw [h.uses_eq h₀ hr, List.filter_eq_nil_iff, Deadlocked]
  simp only [decide_eq_true_eq, not_exists, not_and]
  constructor
  · exact fun hno t ht hcircle => hno t ht ⟨ht, t, .refl, .inr hcircle⟩
  · rintro hno t - ⟨ht, u, htu, hu⟩
    have hmem : u ∈ S₀.uses := by
      rcases Relation.ReflTransGen.cases_tail htu with rfl | ⟨v, -, hu, -⟩
      · exact ht
      · exact hu
    rcases hu with hnone | hcircle
    · obtain ⟨g, hg⟩ := hresolve u hmem
      rw [hnone] at hg
      cases hg
    · exact hno u hmem hcircle

/-! ## What the check rules out -/

/-- The place of the grouping that a uses stands in, in an order of the groupings; a uses outside all
groupings comes last. -/
def UsesTask.rank (order : List GroupingId) (t : UsesTask) : Nat :=
  match t.innermostGrouping with
  | some g => order.idxOf g
  | none => order.length

theorem UsesTask.edge?_eq_some {g h : GroupingId} (hin : t.innermostGrouping = some g)
    (hres : t.resolve d = some h) : t.edge? d = some ⟨g, h⟩ := by
  simp only [edge?, hin, hres, Option.bind_eq_bind, Option.bind_some, Option.pure_def]

/-- Whoever awaits a uses in a grouping stands in no grouping before it. -/
theorem UsesTask.rank_lt_of_resolve {order : List GroupingId}
    (horder : Sorted (UsesGrouping (tasks.filterMap (·.edge? d))) order)
    (husers : ∀ e ∈ tasks.filterMap (·.edge? d), e.user ∈ order)
    (hresolve : ∀ t ∈ tasks, ∃ g, t.resolve d = some g) (ht : t ∈ tasks) (hu : u ∈ tasks)
    {g : GroupingId} (hg : t.resolve d = some g) (hin : u.innermostGrouping = some g) :
    u.rank order < t.rank order := by
  obtain ⟨h, hh⟩ := hresolve u hu
  have hmem : g ∈ order :=
    husers ⟨g, h⟩ (List.mem_filterMap.2 ⟨u, hu, UsesTask.edge?_eq_some hin hh⟩)
  unfold rank
  rw [hin]
  cases hout : t.innermostGrouping with
  | none => exact List.idxOf_lt_length_of_mem hmem
  | some g' =>
    have hedge : ⟨g', g⟩ ∈ tasks.filterMap (·.edge? d) :=
      List.mem_filterMap.2 ⟨t, ht, UsesTask.edge?_eq_some hout hg⟩
    exact horder.idxOf_lt (husers _ hedge) hedge

/-- Along a chain of waiting the groupings go down in the order of the check, or stay the same and the
uses get younger; unless the chain enters a grouping in an augmentation. -/
theorem exists_nested_of_deadlocked {w : Workspace} (h : w.Sane)
    (hcycle : checkGroupings w.draft w.tasks.uses = .ok ())
    (hresolve : ∀ t ∈ w.tasks.uses, ∃ g, t.resolve w.draft = some g)
    (hdead : Deadlocked w.draft w.tasks.uses) :
    ∃ t ∈ w.tasks.uses, ∃ u ∈ w.tasks.uses, ∃ a ∈ (w.draft.usesOf t.uses).augmentations,
      .augment a ∈ u.enclosing ∧ u.innermostGrouping ≠ t.innermostGrouping := by
  refine Classical.byContradiction fun hno => ?_
  obtain ⟨order, horder, husers⟩ := exists_order_of_checkGroupings hcycle
  have hdown : ∀ t ∈ w.tasks.uses, ∀ u ∈ w.tasks.uses, t.Awaits w.draft u →
      u.rank order < t.rank order ∨
        u.rank order = t.rank order ∧ t.uses.index < u.uses.index := by
    rintro t ht u hu (⟨g, hg, hocc⟩ | ⟨a, ha, hocc⟩)
    · left
      exact UsesTask.rank_lt_of_resolve horder husers hresolve ht hu hg
        (UsesTask.grouping_mem_occupies hocc)
    · right
      have hin := UsesTask.augment_mem_occupies hocc
      have hsame : u.innermostGrouping = t.innermostGrouping :=
        Classical.byContradiction fun hne => hno ⟨t, ht, u, hu, a, ha, hin, hne⟩
      refine ⟨?_, ((h.uses u hu).outer a hin).2 t.uses ha⟩
      unfold UsesTask.rank
      rw [hsame]
  obtain ⟨t, ht, hcircle⟩ := hdead
  suffices H : ∀ u, Relation.TransGen (fun t u => u ∈ w.tasks.uses ∧ t.Awaits w.draft u) t u →
      u ∈ w.tasks.uses ∧ (u.rank order < t.rank order ∨
        u.rank order = t.rank order ∧ t.uses.index < u.uses.index) by
    have := (H t hcircle).2
    omega
  intro u hu
  induction hu with
  | single h => exact ⟨h.1, hdown t ht _ h.1 h.2⟩
  | tail _ h ih =>
    obtain ⟨hv, hbelow⟩ := ih
    refine ⟨h.1, ?_⟩
    have := hdown _ hv _ h.1 h.2
    omega

end Waiting

/-! ## The inference -/

/-- Where the check for circular groupings passes and every uses finds its grouping, the inference
leaves a uses behind only if uses wait for one another in a circle, and then it leaves some behind
whatever the order of the tasks.  Such a circle passes from a uses to one that stands in an
augmentation of it, but in another grouping. -/
theorem infer_expands {r : Registry} {config : BuildConfig} {order : List Source}
    {modules : List ModuleId} {w : Workspace}
    (hdeclared : (declareModules r config order).run {} = .ok (modules, w))
    (hcycle : checkGroupings w.draft w.tasks.uses = .ok ())
    (hresolve : ∀ t ∈ w.tasks.uses, ∃ g, t.resolve w.draft = some g) :
    Ends (infer w.tasks) w.draft (fun _ _ => ¬ Deadlocked w.draft w.tasks.uses)
      (fun f _ => (∃ text, f.cause = .unresolved "grouping" text) →
        Deadlocked w.draft w.tasks.uses) ∧
    (∀ ms S, Run (w.tasks.stage w.draft) ms S → S.Stuck →
      (S.uses = [] ↔ ¬ Deadlocked w.draft w.tasks.uses)) ∧
    (Deadlocked w.draft w.tasks.uses → ∃ t ∈ w.tasks.uses, ∃ u ∈ w.tasks.uses,
      ∃ a ∈ (w.draft.usesOf t.uses).augmentations,
        .augment a ∈ u.enclosing ∧ u.innermostGrouping ≠ t.innermostGrouping) := by
  have hsane : w.Sane := (gives_declareModules r config order modules w hdeclared).toSane
  have hstart := hsane.from hcycle
  refine ⟨(ends_infer hstart.toReady).mono ?_ ?_, fun ms S hr hstuck => ?_, fun hdead => ?_⟩
  · rintro _ d ⟨ms, hr⟩
    have hstuck : Stage.Stuck ⟨[], [], d⟩ := ⟨by simp, by simp⟩
    exact (hstuck.uses_eq_nil_iff hstart hresolve hr).1 rfl
  · rintro f d (⟨ms, S, m, f', hr, hbreaks, rfl⟩ | ⟨ms, S, hr, hstuck, rfl, hreports⟩) ⟨text, hf⟩
    · have hattempt : f'.OfAttempt := hbreaks.ofAttempt (hr.ready hstart.toReady)
      exact absurd hf ((hattempt.locate m.trace).no_grouping text)
    · cases hreports with
      | uses h =>
        refine Classical.byContradiction fun hno => ?_
        have := (hstuck.uses_eq_nil_iff hstart hresolve hr).2 hno
        rw [h] at this
        cases this
      | augments _ h =>
        have hwhat : ("augment target" : String) ≠ "grouping" := by decide
        exact absurd (Cause.unresolved.inj hf).1 hwhat
  · exact hstuck.uses_eq_nil_iff hstart hresolve hr
  · exact exists_nested_of_deadlocked hsane hcycle hresolve hdead

/-! ## An example -/

/-- A module in which a uses of a grouping stands in a grouping of its own, inside an augmentation of
a uses in the body of that grouping. -/
def knotSource : Source where
  label := "m.yang"
  kind := .module
  name := "m"
  namespaceUri := some "urn:m"
  parent := none
  ownPrefix := "m"
  revision := none
  header := {}
  imports := []
  includes := []
  root := {
    keyword := .word .moduleWord
    argument := some "m"
    children := [
      { keyword := .word .grouping, argument := some "g"
        children := [{ keyword := .word .container, argument := some "x" }] },
      { keyword := .word .grouping, argument := some "k"
        children := [
          { keyword := .word .uses, argument := some "g"
            children := [
              { keyword := .word .augment, argument := some "x"
                children := [
                  { keyword := .word .container, argument := some "c"
                    children := [
                      { keyword := .word .grouping, argument := some "h"
                        children := [
                          { keyword := .word .uses, argument := some "k" }] }] }] }] }] }] }

/-- The two uses of the module wait for each other, though the check passes; no run expands them, and
the missing of a grouping is reported that is there. -/
theorem deadlocked_knotSource :
    ∃ modules w f, (declareModules .empty {} [knotSource]).run {} = .ok (modules, w) ∧
      checkGroupings w.draft w.tasks.uses = .ok () ∧
      (∀ t ∈ w.tasks.uses, ∃ g, t.resolve w.draft = some g) ∧
      ((infer w.tasks).perform w.draft).1 = .error f ∧
      (∃ text, f.cause = .unresolved "grouping" text) ∧ Deadlocked w.draft w.tasks.uses ∧
      ∀ ms S, Run (w.tasks.stage w.draft) ms S → S.Stuck → S.uses ≠ [] := by
  have hcheck : (((declareModules .empty {} [knotSource]).run {}).toOption.any fun x =>
      (fault? ((infer x.2.tasks).perform x.2.draft).1).any fun f =>
        decide (checkGroupings x.2.draft x.2.tasks.uses = .ok () ∧
          (∀ t ∈ x.2.tasks.uses, (t.resolve x.2.draft).isSome = true) ∧
          f.cause = .unresolved "grouping" "(urn:m)k")) = true := by decide +kernel
  simp only [Option.any_eq_true, toOption_eq_some, fault?_eq_some, decide_eq_true_eq] at hcheck
  obtain ⟨⟨modules, w⟩, hdeclared, f, hf, hcycle, hall, hcause⟩ := hcheck
  have hresolve : ∀ t ∈ w.tasks.uses, ∃ g, t.resolve w.draft = some g :=
    fun t ht => Option.isSome_iff_exists.1 (hall t ht)
  obtain ⟨hends, hstuck, -⟩ := infer_expands hdeclared hcycle hresolve
  have hdead := hends.of_error (Prod.ext hf rfl) ⟨_, hcause⟩
  refine ⟨modules, w, f, hdeclared, hcycle, hresolve, hf, ⟨_, hcause⟩, hdead, ?_⟩
  intro ms S hr hS hnil
  exact (hstuck ms S hr hS).1 hnil hdead

end YangSchema
