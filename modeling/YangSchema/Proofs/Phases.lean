import YangSchema.Proofs.Declaration.Refusals
import YangSchema.Proofs.Reactor
import YangSchema.Proofs.Termination

/-!
# The faults of each phase

Whatever the sources are, a build fails only for causes that belong to the phase (`Cause.phases`);
it is never at fault itself.  For the phases up to the declarations this was shown where they were
described; here the effective model is added (`Workspace.Declared.failsOnly_effectiveModel`) and the
phases are put together (`Reactor.build_faults`).
-/

namespace YangSchema

open Draft Edit

/-! ## The effective model -/

theorem failsOnly_checkGroupings (d : Draft) (tasks : List UsesTask) :
    FailsOnly (Cause.Of .effectiveModel) (checkGroupings d tasks) := by
  rw [checkGroupings_eq_search]
  dsimp only
  have hfold := (searchable_groupings (tasks.filterMap (·.edge? d))).foldlM_finds
    (circularGroupings d) (fun g => .nestedInItself g.render)
    (2 * (tasks.filterMap (·.edge? d)).length) fun g hg => meetsEdge_of_mem_users hg
  refine FailsOnly.discard fun f hf => ?_
  rw [hf] at hfold
  cases hfold with
  | circle => exact List.mem_cons_self
  | long => exact List.mem_cons_self

theorem Stage.Fails.of_effectiveModel {S : Stage} (hS : S.Ready) {f : Fault} {d : Draft}
    (h : S.Fails f d) : f.cause.Of .effectiveModel := by
  obtain ⟨ms, S', m, f', hrun, hbreaks, rfl⟩ := h
  exact (hbreaks.ofAttempt (hrun.ready hS)).phase

theorem Stage.Reports.of_effectiveModel {S : Stage} {f : Fault} (h : S.Reports f) :
    f.cause.Of .effectiveModel := by
  cases h with
  | uses => exact Cause.unresolved_of_effectiveModel _ _
  | augments => exact Cause.unresolved_of_effectiveModel _ _

theorem endsOf_infer {tasks : Tasks} {d : Draft} (hS : (tasks.stage d).Ready) :
    Ends (infer tasks) d (fun _ d' => (infer tasks).perform d = (.ok ⟨⟩, d'))
      fun f _ => f.cause.Of .effectiveModel := by
  refine ((ends_infer hS).and (ends_self _ _)).mono (fun _ d' h => h.2) fun f d' h => ?_
  rcases h.1 with hfails | ⟨-, S, -, -, -, hreports⟩
  · exact hfails.of_effectiveModel hS
  · exact hreports.of_effectiveModel

theorem Workspace.Declared.failsOnly_effectiveModel {w : Workspace} {modules : List ModuleId}
    (h : w.Declared modules) :
    FailsOnly (Cause.Of .effectiveModel) ((effectiveModel w.tasks modules).perform w.draft).1 := by
  intro f hf
  suffices H : Ends (effectiveModel w.tasks modules) w.draft (fun _ _ => True)
      fun f _ => f.cause.Of .effectiveModel from H.of_error (Prod.ext hf rfl)
  unfold effectiveModel
  rw [ends_bind, ends_get, ends_bind, ends_liftM]
  cases hcycle : checkGroupings w.draft w.tasks.uses with
  | error f => exact failsOnly_checkGroupings _ _ f hcycle
  | ok =>
    have hfrom := h.toSane.from hcycle
    dsimp only
    rw [ends_bind]
    refine (endsOf_infer hfrom.toReady).mono (fun _ d hinfer => ?_) fun _ _ hf => hf
    obtain ⟨ms, hrun⟩ := (ends_infer hfrom.toReady).of_ok hinfer
    have hsound : d.Sound := (hrun.from hfrom).follows.sound
    rw [ends_bind]
    refine ((endsPruned_applyDeviations w.tasks.deviations hsound).and (ends_self _ _)).mono
      (fun _ d' hdev => ?_) fun _ _ hf => hf.1
    rw [ends_bind]
    refine (ends_self _ _).mono (fun _ _ _ => trivial) fun f d'' hfreeze => ?_
    obtain ⟨-, -, hfreezable⟩ := h.layered hcycle hinfer hdev.2
    obtain ⟨⟨id, hid⟩, -⟩ := hfreezable.of_error (congrArg Prod.fst hfreeze)
    rw [hid]
    exact List.mem_cons_self

/-! ## Builds -/

/-- If the computation fails, then for a cause of the phase that is reported. -/
def Phased {α : Type} (x : Except BuildFailure α) : Prop :=
  ∀ f, x = .error f → f.fault.cause.Of f.phase

theorem Phase.phased_run {α : Type} {p : Phase} {x : Except Fault α} (h : FailsOnly (Cause.Of p) x) :
    Phased (p.run x) := by
  rintro f hf
  cases x with
  | error g =>
    cases hf
    exact h g rfl
  | ok a => cases hf

theorem Phased.bind {α β : Type} {x : Except BuildFailure α} {k : α → Except BuildFailure β}
    (hx : Phased x) (hk : ∀ a, x = .ok a → Phased (k a)) : Phased (x >>= k) := by
  cases x with
  | error f =>
    rintro _ ⟨⟩
    exact hx f rfl
  | ok a => exact hk a rfl

theorem phased_buildSchema (sources : List ParsedSource) (config : BuildConfig) :
    Phased (buildSchema sources config) := by
  unfold buildSchema
  refine .bind (Phase.phased_run (failsOnly_collectSources sources)) fun r hr => ?_
  refine .bind (Phase.phased_run r.failsOnly_link) fun order hlink => ?_
  rw [Phase.run_eq_ok] at hr hlink
  have hlinked := Registry.Linked.of_link hr hlink
  have horder : ∀ s ∈ order, s ∈ r.sources := fun s hs => Registry.mem_of_link hlink hs
  refine .bind (Phase.phased_run (hlinked.failsOnly_checkPrefixes horder)) fun _ _ => ?_
  refine .bind (Phase.phased_run (orderly_declareModules hlinked config horder)) ?_
  rintro ⟨modules, w⟩ hdeclared
  rw [Phase.run_eq_ok] at hdeclared
  exact Phase.phased_run
    (gives_declareModules r config order modules w hdeclared).failsOnly_effectiveModel

namespace Reactor

/-- A build fails only for causes of the phase in which it does.  Once linking has passed, every import,
every include and every owning module is found, and once the prefixes are bound the reactor finds all
that it looks up.  No shorthand case that freezing comes to is without a child. -/
theorem build_faults (sources : List ParsedSource) (config : BuildConfig) :
    (∀ f, build sources config = .error f → f.fault.cause.Of f.phase) ∧
    ∀ x keys, preLink { config } sources = .ok x → x.link = .ok keys →
      (∀ s ∈ x.registry.sources,
        (∀ i ∈ s.imports, ∃ t, x.registry.resolveImport i = .ok t) ∧
        (∀ i ∈ s.includes, ∃ t, x.registry.resolveInclude s i = .ok t) ∧
        ∃ t, x.registry.owningModule s = .ok t) ∧
      ∀ x', x.define keys = .ok x' →
        (∀ s ∈ x.registry.sources, x'.source s.key = .ok s ∧ x'.root s.key = .ok s.root ∧
          ∃ b, x'.context s.key = .ok b) ∧
        ∀ modules w d d', (x'.declare keys).run {} = .ok (modules, w) →
          checkGroupings w.draft w.tasks.uses = .ok () →
          (infer w.tasks).perform w.draft = (.ok ⟨⟩, d) →
          (applyDeviations w.tasks.deviations).perform d = (.ok ⟨⟩, d') →
          ∀ i, d'.Reached modules (.site (.node i)) → (d'.node i).kind = .caseNode true →
            (d'.node i).children ≠ [] := by
  refine ⟨build_eq_buildSchema sources config ▸ phased_buildSchema sources config, ?_⟩
  intro x keys hx hkeys
  obtain ⟨r, hr, rfl, rfl, hroots⟩ := (agree_preLink sources config).of_ok hx
  obtain ⟨order, hlink, rfl⟩ := (agree_link x).of_ok hkeys
  have hlinked := Registry.Linked.of_link hr hlink
  have hperm := (Registry.sorted_of_link hlink).2
  refine ⟨fun s hs => ⟨hlinked.imports s hs, hlinked.includes s hs, hlinked.owners s hs⟩, ?_⟩
  intro x' hx'
  have hempty : x.Bound [] := fun s hs => by cases hs
  obtain ⟨_, -, ⟨contexts, rfl⟩, hbound⟩ :=
    (agree_define order [] x (fun s => hperm.mem_iff.1) hempty).of_ok hx'
  rw [List.nil_append] at hbound
  refine ⟨fun s hs => ?_, fun modules w d d' hdeclared hcycle hinfer hdev i hi hkind => ?_⟩
  · obtain ⟨b, -, hb⟩ := hbound s (hperm.mem_iff.2 hs)
    unfold source root context
    rw [get?_key hs, hroots s hs, hb]
    exact ⟨rfl, rfl, b, rfl⟩
  · have hroots : Rooted { x with contexts } := hroots
    rw [declare_keys hroots hbound fun s => hperm.mem_iff] at hdeclared
    have hw := gives_declareModules _ _ order modules w hdeclared
    refine (hw.layered hcycle hinfer hdev).2.2.filled i hi ?_
    show (d'.node i).kind.isShorthandCase = true
    rw [hkind]
    rfl

/-! ## An example -/

/-- A module with a choice of two leaves. -/
def choiceSource : ParsedSource where
  label := "m.yang"
  root := .ok {
    keyword := .word .moduleWord
    argument := some "m"
    children := [
      { keyword := .word .namespaceWord, argument := some "urn:m" },
      { keyword := .word .prefixWord, argument := some "m" },
      { keyword := .word .choice, argument := some "ch"
        children := [
          { keyword := .word .leaf, argument := some "a" },
          { keyword := .word .leaf, argument := some "b" }] }] }

/-- A module that takes one of the leaves out. -/
def deviatingSource : ParsedSource where
  label := "n.yang"
  root := .ok {
    keyword := .word .moduleWord
    argument := some "n"
    children := [
      { keyword := .word .namespaceWord, argument := some "urn:n" },
      { keyword := .word .prefixWord, argument := some "n" },
      { keyword := .word .importWord, argument := some "m"
        children := [{ keyword := .word .prefixWord, argument := some "m" }] },
      { keyword := .word .deviation, argument := some "/m:ch/m:a/m:a"
        children := [{ keyword := .word .deviate, argument := some "not-supported" }] }] }

/-- The second module alone fails in the linkage.  With the first one the modules are frozen, and the
case of the leaf that stays is among what is frozen. -/
theorem build_faults_deviatingSource :
    (∃ f, build [deviatingSource] {} = .error f ∧ f.fault.cause = .missingModule "m" ∧
      f.fault.cause.Of f.phase) ∧
    ∃ x keys x' modules w d d' i, preLink {} [choiceSource, deviatingSource] = .ok x ∧
      x.link = .ok keys ∧ x.define keys = .ok x' ∧ (x'.declare keys).run {} = .ok (modules, w) ∧
      checkGroupings w.draft w.tasks.uses = .ok () ∧
      (infer w.tasks).perform w.draft = (.ok ⟨⟩, d) ∧
      (applyDeviations w.tasks.deviations).perform d = (.ok ⟨⟩, d') ∧
      d'.Reached modules (.site (.node i)) ∧ (d'.node i).kind = .caseNode true ∧
      (d'.node i).children ≠ [] ∧ ∀ s ∈ x.registry.sources, x'.source s.key = .ok s := by
  have hfails : (fault? (build [deviatingSource] {})).any (fun f =>
      decide (f.fault.cause = .missingModule "m")) = true := by decide +kernel
  have hpasses : ((preLink {} [choiceSource, deviatingSource]).toOption.any fun x =>
      x.link.toOption.any fun keys => (x.define keys).toOption.any fun x' =>
      ((x'.declare keys).run {}).toOption.any fun y =>
        decide (checkGroupings y.2.draft y.2.tasks.uses = .ok ()) &&
        (((infer y.2.tasks).perform y.2.draft).1.toOption.any fun _ =>
          let d := ((infer y.2.tasks).perform y.2.draft).2
          ((applyDeviations y.2.tasks.deviations).perform d).1.toOption.any fun _ =>
            let d' := ((applyDeviations y.2.tasks.deviations).perform d).2
            y.1.any fun m => (d'.childrenOf (.module m)).any fun c =>
              (d'.childrenOf (.node c)).any fun i => decide ((d'.node i).kind = .caseNode true))) =
      true := by decide +kernel
  simp only [Option.any_eq_true, toOption_eq_some, fault?_eq_some, Bool.and_eq_true,
    List.any_eq_true, decide_eq_true_eq] at hfails hpasses
  obtain ⟨f, hf, hcause⟩ := hfails
  obtain ⟨x, hx, keys, hkeys, x', hx', ⟨modules, w⟩, hdeclared, hcycle, _, hinfer, _, hdev,
    m, hm, c, hc, i, hi, hkind⟩ := hpasses
  obtain ⟨d, hd⟩ : ∃ d, ((infer w.tasks).perform w.draft).2 = d := ⟨_, rfl⟩
  obtain ⟨d', hd'⟩ : ∃ d', ((applyDeviations w.tasks.deviations).perform d).2 = d' := ⟨_, rfl⟩
  rw [hd] at hdev
  simp only [hd, hd'] at hc hi hkind
  have hreached : d'.Reached modules (.site (.node i)) :=
    (Reached.refers ⟨m, hm, .refl⟩ (.child hc)).refers (.child hi)
  obtain ⟨hfaults, -⟩ := build_faults [deviatingSource] {}
  obtain ⟨-, hlookups⟩ := (build_faults [choiceSource, deviatingSource] {}).2 x keys hx hkeys
  obtain ⟨hfound, hfilled⟩ := hlookups x' hx'
  exact ⟨⟨f, hf, hcause, hfaults f hf⟩, x, keys, x', modules, w, d, d', i, hx, hkeys, hx', hdeclared,
    hcycle, Prod.ext hinfer hd, Prod.ext hdev hd', hreached, hkind,
    hfilled modules w d d' hdeclared hcycle (Prod.ext hinfer hd) (Prod.ext hdev hd') i hreached hkind,
    fun s hs => (hfound s hs).1⟩

end Reactor

end YangSchema
