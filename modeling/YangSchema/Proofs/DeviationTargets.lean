import YangSchema.Proofs.DeviationPolicy
import YangSchema.Proofs.Inference.Removal

/-!
# Deviations of nodes that were there

A deviation looks for its target in what the deviations before it left.  If the target was there when
the deviations began, it is found, or a deviation before removed it or what is above it, and this one is
passed over; or the target is a shorthand case that was left empty when deviations removed what was in
it (`DeviationTask.Outcome`).  Such a case is gone too, but no path that was removed leads to it or to
what is above it, and the deviation is reported as unresolved (`deviations_of_found_targets`).
-/

namespace YangSchema

open Draft Edit

namespace DeviationTask

variable {t : DeviationTask} {pre : List DeviationTask} {removed : List SchemaPath} {d₀ d d₁ : Draft}
  {n : NodeId}

/-- It says that its target is not supported. -/
def Removes (t : DeviationTask) : Prop := ∃ v ∈ t.deviation.deviates, v.kind = .notSupported

/-- Applies the deviations in turn; answers what they removed. -/
def applyInTurn (pre : List DeviationTask) : Edit (List SchemaPath) :=
  pre.foldlM (fun removed t => located t.trace (t.run removed)) []

/-- The deviations were applied to `d₀`, which came to `d`, and removed these targets. -/
def AppliedTo (pre : List DeviationTask) (d₀ : Draft) (removed : List SchemaPath) (d : Draft) : Prop :=
  (applyInTurn pre).perform d₀ = (.ok removed, d)

/-- What comes of a deviation on the draft `d`, if its target was the node `n` in `d₀` and deviations
before it removed `removed`. -/
inductive Outcome (t : DeviationTask) (d₀ : Draft) (removed : List SchemaPath) (d : Draft) (n : NodeId) :
    Prop
  /-- It is applied to what its target leads to now, which is `n` unless `n` is gone and another node has
  the same path; if it is refused, that is for what it says. -/
  | applied (i : NodeId) (found : d.findDataNode t.deviation.target = some i)
      (same : i = n ∨ (∃ p ∈ removed, p.isAncestorOf t.deviation.target = true) ∨ Emptied removed d₀ d n)
      (ends : Ends (t.run removed) d
        (fun removed' _ => removed' = removed ∨ removed' = removed ++ [t.deviation.target] ∧ t.Removes)
        fun f _ => f.cause.IsRefusal)
  /-- It is passed over, as its target or what is above it was removed. -/
  | passedOver (missing : d.findDataNode t.deviation.target = none)
      (above : ∃ p ∈ removed, p.isAncestorOf t.deviation.target = true)
      (ends : (t.run removed).perform d = (.ok removed, d))
  /-- It is reported, as its target is a shorthand case that was left empty. -/
  | reported (missing : d.findDataNode t.deviation.target = none)
      (notAbove : ∀ p ∈ removed, p.isAncestorOf t.deviation.target = false)
      (emptied : Emptied removed d₀ d n)
      (below : ∃ p ∈ removed, t.deviation.target.isAncestorOf p = true)
      (ends : (t.run removed).perform d =
        (.error (.unresolved "deviation target" t.deviation.target.render), d))

/-! ## One deviation -/

/-- What is removed is removed by a deviation that says so. -/
theorem ends_run_cleared (t : DeviationTask) (h : Cleared removed d₀ d) :
    Ends (t.run removed) d
      (fun removed' d' => Cleared removed' d₀ d' ∧
        (removed' = removed ∨ removed' = removed ++ [t.deviation.target] ∧ t.Removes))
      fun f _ => d.findDataNode t.deviation.target = none ∨ f.cause.IsRefusal := by
  unfold run
  rw [ends_bind, ends_get]
  split
  · next hnone =>
    split
    · exact ⟨h, .inl rfl⟩
    · exact .inl hnone
  · next i hi =>
    have haddressed := addresses_of_findDataNode hi
    rw [ends_bind]
    refine (ends_deviateNode_cleared _ h (h.addresses haddressed)
      (haddressed.outsideBodies h.sound)).mono ?_ fun _ _ hf => .inr hf
    rintro (_ | _) d' h'
    · exact ⟨h', .inl rfl⟩
    · exact ⟨h'.1, .inr ⟨rfl, h'.2⟩⟩

theorem perform_run_of_missing (removed : List SchemaPath)
    (hnone : d.findDataNode t.deviation.target = none) :
    (t.run removed).perform d =
      if removed.any (·.isAncestorOf t.deviation.target) then (.ok removed, d)
      else (.error (.unresolved "deviation target" t.deviation.target.render), d) := by
  unfold run
  rw [perform_bind_of_ok (perform_get d), hnone]
  dsimp only
  split <;> rfl

end DeviationTask

/-! ## Paths of removed nodes -/

namespace Draft

variable {d₀ d : Draft} {removed : List SchemaPath} {n i : NodeId} {p p' : SchemaPath}

/-- The path of a node goes on to the paths of what is below it. -/
theorem Addresses.isAncestorOf (hd : d.Sound) (h : d.Addresses p n) (h' : d.Addresses p' i)
    (hunder : d.Under (.node i) (.node n)) : p.isAncestorOf p' = true := by
  obtain ⟨-, m, -, -, hn⟩ := h
  obtain ⟨-, m', -, -, hi⟩ := h'
  obtain ⟨q, hq⟩ := Leads.exists_of_under hd hunder
  rw [SchemaPath.isAncestorOf_iff, ← (hn.append hq).path_unique_of_module hd hi]
  exact List.prefix_append _ _

/-- What was found and is not found any more is below something that was removed, or was left empty. -/
theorem Cleared.findDataNode (h : Cleared removed d₀ d) (hd : d₀.Sound)
    (hn : d₀.findDataNode p = some n) :
    d.findDataNode p = some n ∨ (∃ p' ∈ removed, p'.isAncestorOf p = true) ∨ Emptied removed d₀ d n := by
  obtain ⟨q, m, hq, hm, hfind⟩ := findDataNode_eq_some.1 hn
  obtain ⟨hne, hdesc⟩ := findDescendant_eq_some.1 hfind
  rcases h.descend hdesc with hdesc' | ⟨q₁, q₂, c, hsteps, hc, p', hp', haddressed⟩ | ⟨c, hnc, hemptied⟩
  · exact .inl (findDataNode_eq_some.2
      ⟨q, m, hq, (h.moduleOf? q.owner).trans hm, findDescendant_eq_some.2 ⟨hne, hdesc'⟩⟩)
  · obtain ⟨-, m', -, -, hleads⟩ := haddressed
    refine .inr (.inl ⟨p', hp', SchemaPath.isAncestorOf_iff.2 ?_⟩)
    rw [← hc.path_unique_of_module hd hleads, hsteps]
    exact List.prefix_append _ _
  · cases hnc
    exact .inr (.inr hemptied)

theorem Emptied.exists_below (h : Emptied removed d₀ d n) (hd : d₀.Sound)
    (hn : d₀.findDataNode p = some n) : ∃ p' ∈ removed, p.isAncestorOf p' = true := by
  obtain ⟨i, hi, p', hp', haddressed⟩ := h.removed
  exact ⟨p', hp', (addresses_of_findDataNode hn).isAncestorOf hd haddressed hi⟩

end Draft

/-! ## All deviations -/

namespace DeviationTask

variable {t : DeviationTask} {pre : List DeviationTask} {removed : List SchemaPath} {d₀ d d₁ : Draft}
  {n : NodeId}

/-- What is missing was removed by deviations that say so, or was left empty by them. -/
theorem AppliedTo.cleared (h : AppliedTo pre d₀ removed d) (hd : d₀.Sound) :
    Cleared removed d₀ d ∧ ∀ p ∈ removed, ∃ u ∈ pre, u.Removes ∧ u.deviation.target = p := by
  refine (ends_foldlM (E := fun _ _ => True) (I := fun done removed d => Cleared removed d₀ d ∧
    ∀ p ∈ removed, ∃ u ∈ done, u.Removes ∧ u.deviation.target = p) pre [] ⟨.refl hd, by simp⟩
    ?_).of_ok h
  rintro done t rest removed d₁ - ⟨h₁, hwho⟩
  have hbefore : ∀ p ∈ removed, ∃ u ∈ done ++ [t], u.Removes ∧ u.deviation.target = p := by
    intro p hp
    obtain ⟨u, hu, hremoves⟩ := hwho p hp
    exact ⟨u, List.mem_append_left _ hu, hremoves⟩
  rw [ends_located]
  refine (t.ends_run_cleared h₁).mono ?_ fun _ _ _ => trivial
  rintro removed' d' ⟨h', rfl | ⟨rfl, hremoves⟩⟩
  · exact ⟨h', hbefore⟩
  · refine ⟨h', List.forall_mem_append.2 ⟨hbefore, ?_⟩⟩
    simp only [List.mem_singleton, forall_eq]
    exact ⟨t, by simp, hremoves, rfl⟩

theorem AppliedTo.outcome (h : AppliedTo pre d₀ removed d) (hd : d₀.Sound)
    (hn : d₀.findDataNode t.deviation.target = some n) : t.Outcome d₀ removed d n := by
  have hcleared := (h.cleared hd).1
  have hwhy := hcleared.findDataNode hd hn
  cases hfound : d.findDataNode t.deviation.target with
  | some i =>
    refine .applied i hfound ?_ ?_
    · exact hwhy.imp_left fun hsame => Option.some.inj (hfound.symm.trans hsame)
    · refine (t.ends_run_cleared hcleared).mono (fun _ _ h' => h'.2) fun _ _ hf => ?_
      exact hf.resolve_left (by simp [hfound])
  | none =>
    have hperform := perform_run_of_missing removed hfound
    cases habove : removed.any (·.isAncestorOf t.deviation.target) with
    | true =>
      rw [habove, if_pos rfl] at hperform
      exact .passedOver hfound (by simpa using habove) hperform
    | false =>
      rw [habove, if_neg (by simp)] at hperform
      have hnot : ∀ p ∈ removed, p.isAncestorOf t.deviation.target = false := by simpa using habove
      have hemptied : Emptied removed d₀ d n := by
        rcases hwhy with hsame | ⟨p, hp, habove⟩ | hemptied
        · rw [hfound] at hsame
          cases hsame
        · rw [hnot p hp] at habove
          cases habove
        · exact hemptied
      exact .reported hfound hnot hemptied (hemptied.exists_below hd hn) hperform

end DeviationTask

/-! ## Builds -/

/-- The deviations in the order in which they take effect. -/
def Tasks.deviationsInOrder (tasks : Tasks) : List DeviationTask :=
  tasks.deviations.mergeSort fun a b => (a.applyOrder b).isLE

theorem sane_of_declaredModules {sources : List ParsedSource} {config : BuildConfig}
    {modules : List ModuleId} {w : Workspace}
    (h : declaredModules sources config = .ok (modules, w)) : w.Sane := by
  obtain ⟨r, -, hdeclared⟩ := exists_of_bind_eq_ok h
  obtain ⟨order, -, hdeclared⟩ := exists_of_bind_eq_ok hdeclared
  obtain ⟨_, -, hdeclared⟩ := exists_of_bind_eq_ok hdeclared
  exact (gives_declareModules r config order modules w (Phase.run_eq_ok.1 hdeclared)).toSane

theorem perform_checkGroupings {d : Draft} {tasks : List UsesTask}
    (h : checkGroupings d tasks = .ok ⟨⟩) : perform (liftM (checkGroupings d tasks)) d = (.ok ⟨⟩, d) := by
  rw [h]
  rfl

/-- A build fails as its effective model does. -/
theorem buildSchema_eq_error_of_effectiveModel {sources : List ParsedSource} {config : BuildConfig}
    {modules : List ModuleId} {w : Workspace} {f : Fault}
    (h : declaredModules sources config = .ok (modules, w))
    (hmodel : ((effectiveModel w.tasks modules).perform w.draft).1 = .error f) :
    buildSchema sources config = .error ⟨.effectiveModel, f⟩ := by
  rw [buildSchema_eq_declaredModules, h]
  show Phase.effectiveModel.run ((effectiveModel w.tasks modules).perform w.draft).1 = _
  rw [hmodel]
  rfl

/-- The build of the sources gets as far as the deviations, which begin with the draft `d`. -/
structure ReachesDeviations (sources : List ParsedSource) (config : BuildConfig)
    (modules : List ModuleId) (w : Workspace) (d : Draft) : Prop where
  declared : declaredModules sources config = .ok (modules, w)
  acyclic : checkGroupings w.draft w.tasks.uses = .ok ⟨⟩
  inferred : (infer w.tasks).perform w.draft = (.ok ⟨⟩, d)

namespace ReachesDeviations

variable {sources : List ParsedSource} {config : BuildConfig} {modules : List ModuleId} {w : Workspace}
  {d d' : Draft} {f : Fault} (h : ReachesDeviations sources config modules w d)
include h

theorem sane : w.Sane :=
  sane_of_declaredModules h.declared

theorem sound : d.Sound := by
  have hfrom := h.sane.from h.acyclic
  obtain ⟨ms, hrun⟩ := (ends_infer hfrom.toReady).of_ok h.inferred
  exact (hrun.from hfrom).follows.sound

/-- A build fails as its deviations do. -/
theorem buildSchema_eq_error (hdeviate : (applyDeviations w.tasks.deviations).perform d = (.error f, d')) :
    buildSchema sources config = .error ⟨.effectiveModel, f⟩ := by
  refine buildSchema_eq_error_of_effectiveModel h.declared ?_
  unfold effectiveModel
  rw [perform_bind_of_ok (perform_get _), perform_bind_of_ok (perform_checkGroupings h.acyclic),
    perform_bind_of_ok h.inferred, perform_bind_of_error hdeviate]

end ReachesDeviations

/-- Deviations that succeed are applied one after the other; they fail as the first of them that fails. -/
theorem ends_applyDeviations_inTurn (tasks : Tasks) (d : Draft) :
    Ends (applyDeviations tasks.deviations) d
      (fun _ d' => ∃ removed, DeviationTask.AppliedTo tasks.deviationsInOrder d removed d')
      fun f d' => ∃ pre t post removed d₁ g, tasks.deviationsInOrder = pre ++ t :: post ∧
        DeviationTask.AppliedTo pre d removed d₁ ∧ (t.run removed).perform d₁ = (.error g, d') ∧
        f = g.locate t.trace := by
  unfold applyDeviations
  rw [ends_discard]
  refine ((ends_self _ _).and (ends_foldlM_fails _ _)).mono (fun removed d' h => ⟨removed, h.1⟩) ?_
  rintro f d' ⟨-, pre, t, post, removed, d₁, hl, happlied, hfails⟩
  have hrun : Ends (located t.trace (t.run removed)) d₁ (fun _ _ => True) fun f d' =>
      ∃ g, (t.run removed).perform d₁ = (.error g, d') ∧ f = g.locate t.trace := by
    rw [ends_located]
    exact (ends_self _ _).mono (fun _ _ _ => trivial) fun g d' hg => ⟨g, hg, rfl⟩
  obtain ⟨g, hg, hf⟩ := hrun.of_error hfails
  exact ⟨pre, t, post, removed, d₁, g, hl, happlied, hg, hf⟩

/-- A deviation of a node that was there when the deviations began is applied, or it is passed over as a
deviation before it removed the node or what is above it; or the node is a shorthand case that was left
empty by the deviations before.  So if the deviations fail, and with them the build, then one of them
failed that had no target to begin with, or was refused for what it says, or is a deviation of such a
case, which is reported as unresolved. -/
theorem deviations_of_found_targets {sources : List ParsedSource} {config : BuildConfig}
    {modules : List ModuleId} {w : Workspace} {d : Draft}
    (h : ReachesDeviations sources config modules w d) :
    (∀ pre t post removed d₁ n, w.tasks.deviationsInOrder = pre ++ t :: post →
      DeviationTask.AppliedTo pre d removed d₁ → d.findDataNode t.deviation.target = some n →
      t.Outcome d removed d₁ n ∧ ∀ p ∈ removed, ∃ u ∈ pre, u.Removes ∧ u.deviation.target = p) ∧
    ∀ f d', (applyDeviations w.tasks.deviations).perform d = (.error f, d') →
      buildSchema sources config = .error ⟨.effectiveModel, f⟩ ∧
      ∃ pre t post removed d₁ g, w.tasks.deviationsInOrder = pre ++ t :: post ∧
        DeviationTask.AppliedTo pre d removed d₁ ∧ (t.run removed).perform d₁ = (.error g, d') ∧
        f = g.locate t.trace ∧ ∀ n, d.findDataNode t.deviation.target = some n →
          g.cause.IsRefusal ∨ Emptied removed d d₁ n ∧
            g = .unresolved "deviation target" t.deviation.target.render := by
  refine ⟨fun pre t post removed d₁ n _ happlied hn => ⟨happlied.outcome h.sound hn,
    (happlied.cleared h.sound).2⟩, fun f d' hdeviate => ⟨h.buildSchema_eq_error hdeviate, ?_⟩⟩
  obtain ⟨pre, t, post, removed, d₁, g, hl, happlied, hg, hf⟩ :=
    (ends_applyDeviations_inTurn w.tasks d).of_error hdeviate
  refine ⟨pre, t, post, removed, d₁, g, hl, happlied, hg, hf, fun n hn => ?_⟩
  cases happlied.outcome h.sound hn with
  | applied i hfound hsame hends => exact .inl (hends.of_error hg)
  | passedOver hmissing habove hends =>
    rw [hends] at hg
    cases hg
  | reported hmissing hnotAbove hemptied hbelow hends =>
    rw [hends] at hg
    cases hg
    exact .inr ⟨hemptied, rfl⟩

/-- A module with a leaf in a choice. -/
def shorthandSource : ParsedSource where
  label := "m.yang"
  root := .ok {
    keyword := .word .moduleWord
    argument := some "m"
    children := [
      { keyword := .word .namespaceWord, argument := some "urn:m" },
      { keyword := .word .prefixWord, argument := some "m" },
      { keyword := .word .choice, argument := some "ch"
        children := [{ keyword := .word .leaf, argument := some "x" }] }] }

/-- A module that takes out the leaf, and then the case that the leaf stands in. -/
def emptyingSource : ParsedSource where
  label := "n.yang"
  root := .ok {
    keyword := .word .moduleWord
    argument := some "n"
    children := [
      { keyword := .word .namespaceWord, argument := some "urn:n" },
      { keyword := .word .prefixWord, argument := some "n" },
      { keyword := .word .importWord, argument := some "m"
        children := [{ keyword := .word .prefixWord, argument := some "m" }] },
      { keyword := .word .deviation, argument := some "/m:ch/m:x/m:x"
        children := [{ keyword := .word .deviate, argument := some "not-supported" }] },
      { keyword := .word .deviation, argument := some "/m:ch/m:x"
        children := [{ keyword := .word .deviate, argument := some "not-supported" }] }] }

/-- The case was there when the deviations began, and its deviation is reported as unresolved. -/
theorem deviations_of_found_targets_emptyingSource :
    ∃ modules w d pre t removed d₁ n,
      ReachesDeviations [shorthandSource, emptyingSource] {} modules w d ∧
      w.tasks.deviationsInOrder = pre ++ [t] ∧ DeviationTask.AppliedTo pre d removed d₁ ∧
      d.findDataNode t.deviation.target = some n ∧ Emptied removed d d₁ n ∧
      (t.run removed).perform d₁ = (.error (.unresolved "deviation target" "/ch/x"), d₁) := by
  have hcheck : ((declaredModules [shorthandSource, emptyingSource] {}).toOption.any fun x =>
      decide (checkGroupings x.2.draft x.2.tasks.uses = .ok ⟨⟩ ∧
        ((infer x.2.tasks).perform x.2.draft).1 = .ok ⟨⟩ ∧
        x.2.tasks.deviations.Pairwise (fun t u => (t.applyOrder u).isLE = true)) &&
      x.2.tasks.deviations.getLast?.any fun t =>
        let d := ((infer x.2.tasks).perform x.2.draft).2
        let applied := (DeviationTask.applyInTurn x.2.tasks.deviations.dropLast).perform d
        (d.findDataNode t.deviation.target).isSome && applied.1.toOption.any fun removed =>
          decide (fault? ((t.run removed).perform applied.2).1 =
            some (.unresolved "deviation target" "/ch/x"))) = true := by
    decide +kernel
  simp only [Option.any_eq_true, toOption_eq_some, fault?_eq_some, Option.isSome_iff_exists,
    Bool.and_eq_true, decide_eq_true_eq] at hcheck
  obtain ⟨⟨modules, w⟩, hdeclared, ⟨hcycle, hinfer, hsorted⟩, t, hlast, ⟨n, hn⟩, removed, happlied,
    hfails⟩ := hcheck
  have hreaches : ReachesDeviations [shorthandSource, emptyingSource] {} modules w _ :=
    ⟨hdeclared, hcycle, Prod.ext hinfer rfl⟩
  have hl : w.tasks.deviationsInOrder = w.tasks.deviations.dropLast ++ [t] := by
    unfold Tasks.deviationsInOrder
    rw [List.mergeSort_of_pairwise hsorted, List.dropLast_append_getLast? t hlast]
  obtain ⟨houtcome, -⟩ :=
    (deviations_of_found_targets hreaches).1 _ t [] removed _ n hl (Prod.ext happlied rfl) hn
  cases houtcome with
  | applied i hfound hsame hends =>
    obtain ⟨problem, hproblem⟩ := hends.of_error (Prod.ext hfails rfl)
    cases hproblem
  | passedOver hmissing habove hends =>
    rw [hends] at hfails
    cases hfails
  | reported hmissing hnotAbove hemptied hbelow hends =>
    refine ⟨modules, w, _, _, t, removed, _, n, hreaches, hl, Prod.ext happlied rfl, hn, hemptied, ?_⟩
    rw [hends] at hfails ⊢
    rw [Except.error.inj hfails]

end YangSchema
