import YangSchema.Proofs.Declaration.Alike
import YangSchema.Proofs.Reactor

/-!
# What the configuration decides

A deviation at the top of a source asks the configuration one question: may the module at hand deviate
the module of the last step of the target?  `deviationPairs` lists what the sources ask.  A build that
fails before the effective model fails so under every configuration, and configurations with the same
answers to what is asked lead to the same outcome (`buildSchema_of_answers`).
-/

namespace YangSchema

open Declare

/-! ## What is asked -/

/-- What a statement at the top of a source asks, if it is a deviation with a target: may the module
that it is declared in deviate the module of the last step of the target? -/
def Prefixes.deviationPair? (b : Prefixes) (stmt : Statement) : Option DeviationPair := do
  guard (stmt.keyword = .word .deviation)
  let text ← stmt.argument
  let e ← (PathExpr.parse text).toOption
  guard e.absolute
  let target ← (b.path e).toOption
  let last ← target.last?
  return ⟨last.owner, b.own⟩

/-- What a module and the submodules that go into it ask. -/
def Registry.deviationPairs (r : Registry) (s : Source) : List DeviationPair :=
  match r.includedBy s, r.effectiveIdentity s with
  | .ok submodules, .ok own => (s :: submodules).flatMap fun part =>
    match Prefixes.ofSource r part with
    | .ok prefixes => part.root.children.filterMap { prefixes with own }.deviationPair?
    | .error _ => []
  | _, _ => []

/-- What the sources ask. -/
def deviationPairs (sources : List ParsedSource) : List DeviationPair :=
  match collectSources sources with
  | .ok r => (r.sources.filter (!·.isSubmodule)).flatMap r.deviationPairs
  | .error _ => []

/-- The configurations answer alike. -/
def BuildConfig.SameOn (c c' : BuildConfig) (ps : List DeviationPair) : Prop :=
  ∀ p ∈ ps, c.allowsDeviation p.target p.deviating = c'.allowsDeviation p.target p.deviating

namespace DeviationMatrix

theorem mem_insert {m : DeviationMatrix} {p q : DeviationPair} :
    q ∈ (m.insert p).pairs ↔ q = p ∨ q ∈ m.pairs := by
  constructor
  · exact mem_of_mem_insertBy
  · rintro (rfl | hq)
    · exact mem_insertBy_self id q m.pairs
    · by_cases hc : compare p q = .eq
      · obtain rfl : p = q := Std.LawfulEqOrd.eq_of_compare hc
        exact mem_insertBy_self id p m.pairs
      · exact mem_insertBy_of_ne hq hc

/-- The matrix of some pairs lists these and no others. -/
theorem mem_ofPairs {ps : List DeviationPair} {q : DeviationPair} :
    q ∈ (ofPairs ps).pairs ↔ q ∈ ps := by
  have hempty : q ∉ empty.pairs := List.not_mem_nil
  suffices H : ∀ m : DeviationMatrix, q ∈ (ps.foldl insert m).pairs ↔ q ∈ ps ∨ q ∈ m.pairs from
    (H empty).trans (or_iff_left hempty)
  induction ps with
  | nil => simp
  | cons p ps ih =>
    intro m
    rw [List.foldl_cons, ih, mem_insert, List.mem_cons]
    tauto

/-- A matrix that lists what is asked answers as if every deviation took effect. -/
theorem sameOn_all {m : DeviationMatrix} {ps : List DeviationPair} (h : ∀ p ∈ ps, p ∈ m.pairs) :
    BuildConfig.SameOn ⟨.all⟩ (.withMatrix m) ps := by
  intro p hp
  show true = m.pairs.contains p
  rw [List.contains_iff_mem.2 (h p hp)]

end DeviationMatrix

/-! ## Deviations -/

namespace Setting

variable {k : Setting} {stmt : Statement} {target : SchemaPath} {last : QName}

theorem deviationPair?_eq_some (hkeyword : stmt.keyword = .word .deviation)
    (h : k.absolutePath "'deviation'" stmt = .ok target) (hlast : target.last? = some last) :
    k.prefixes.deviationPair? stmt = some ⟨last.owner, k.own⟩ := by
  obtain ⟨text, htext, h⟩ := exists_of_bind_eq_ok h
  obtain ⟨e, he, h⟩ := exists_of_bind_eq_ok h
  have habsolute : e.absolute = true := by
    by_contra hn
    rw [if_pos (by simpa using hn)] at h
    cases h
  rw [if_neg (by simp [habsolute])] at h
  have hpath : k.prefixes.path e = .ok target := h
  simp [Prefixes.deviationPair?, hkeyword, argument_of_requireArgument htext, he, habsolute, hpath,
    hlast, Setting.own, Except.toOption]

/-- Whoever may deviate the module is not the module itself. -/
theorem deviatedModule_eq_ok {deviated : ModuleIdentity} (h : k.deviatedModule target = .ok deviated) :
    ∃ last, target.last? = some last ∧ deviated = last.owner ∧ last.owner ≠ k.own := by
  unfold deviatedModule at h
  split at h
  · cases h
  · next last hlast =>
    split at h
    · cases h
    · next hne =>
      cases h
      exact ⟨last, hlast, rfl, by simpa using hne⟩

variable (k stmt) in
/-- A module that ends with its declaration deviates none of its own nodes. -/
theorem gives_declareTop_foreign (w : Workspace) : Gives (k.declareTop stmt) w fun _ _ =>
    ∀ p, k.prefixes.deviationPair? stmt = some p → p.target ≠ p.deviating := by
  by_cases hkeyword : stmt.keyword = .word .deviation
  · unfold declareTop
    rw [hkeyword]
    show Gives (k.declareDeviation stmt) w _
    unfold declareDeviation
    rw [gives_bind, gives_check]
    intro target htarget
    rw [gives_bind, gives_check]
    intro deviated hdeviated a w' _ p hp
    obtain ⟨last, hlast, -, hne⟩ := deviatedModule_eq_ok hdeviated
    rw [deviationPair?_eq_some hkeyword htarget hlast] at hp
    cases hp
    exact hne
  · intro a w' _ p hp
    simp [Prefixes.deviationPair?, hkeyword] at hp

/-- Under a configuration with the same answer to what the statement asks, the statement is declared
the same. -/
theorem declareTop_under {config : BuildConfig}
    (h : config.SameOn k.config (k.prefixes.deviationPair? stmt).toList) :
    (k.under config).declareTop stmt = k.declareTop stmt := by
  unfold declareTop
  split
  · rfl
  · rfl
  · rfl
  · unfold declareTopAugment
    rw [declareBody_under]
    rfl
  · next hkeyword =>
    refine check_bind_congr fun target htarget => check_bind_congr fun deviated hdeviated => ?_
    refine bind_congr fun deviates => bind_congr fun order => bind_congr fun _ => ?_
    obtain ⟨last, hlast, rfl, -⟩ := deviatedModule_eq_ok hdeviated
    have hasked : (⟨last.owner, k.own⟩ : DeviationPair) ∈ (k.prefixes.deviationPair? stmt).toList := by
      rw [deviationPair?_eq_some (k := k) hkeyword htarget hlast]
      exact List.mem_cons_self
    have hanswer : config.allowsDeviation last.owner k.own = k.config.allowsDeviation last.owner k.own :=
      h _ hasked
    show (if config.allowsDeviation last.owner k.own then _ else _) = _
    rw [hanswer]
    rfl
  · rfl

theorem declareSource_under {config : BuildConfig}
    (h : config.SameOn k.config (stmt.children.filterMap k.prefixes.deviationPair?)) :
    (k.under config).declareSource stmt = k.declareSource stmt := by
  unfold declareSource
  rw [declareBody_under]
  have htops : ∀ c ∈ stmt.children, located (k.trace c) ((k.under config).declareTop c) =
      located (k.trace c) (k.declareTop c) := by
    intro c hc
    rw [declareTop_under fun p hp => h p (List.mem_filterMap.2 ⟨c, hc, by simpa using hp⟩)]
  rw [← forM_congr htops]
  rfl

variable (k stmt) in
theorem gives_declareSource_foreign (w : Workspace) : Gives (k.declareSource stmt) w fun _ _ =>
    ∀ p ∈ stmt.children.filterMap k.prefixes.deviationPair?, p.target ≠ p.deviating := by
  unfold declareSource
  rw [gives_bind]
  refine (gives_forM (I := fun done _ => ∀ c ∈ done, ∀ p, k.prefixes.deviationPair? c = some p →
    p.target ≠ p.deviating) _ (by simp) ?_).mono ?_
  · intro pre c post w₁ _ hpre
    rw [gives_located]
    refine (k.gives_declareTop_foreign c w₁).mono fun _ _ hc => ?_
    exact List.forall_mem_append.2 ⟨hpre, by simpa using hc⟩
  · intro _ w₁ hall _ w₂ _ p hp
    obtain ⟨c, hc, hp⟩ := List.mem_filterMap.1 hp
    exact hall c hc p hp

end Setting

/-! ## Modules -/

section

variable {r : Registry} {s : Source} {c c' : BuildConfig} {order : List Source}

theorem Registry.mem_deviationPairs {submodules : List Source} {own : ModuleIdentity} {part : Source}
    {prefixes : Prefixes} {p : DeviationPair} (hincluded : r.includedBy s = .ok submodules)
    (hown : r.effectiveIdentity s = .ok own) (hpart : part ∈ s :: submodules)
    (hprefixes : Prefixes.ofSource r part = .ok prefixes)
    (hp : p ∈ part.root.children.filterMap { prefixes with own }.deviationPair?) :
    p ∈ r.deviationPairs s := by
  unfold deviationPairs
  rw [hincluded, hown]
  refine List.mem_flatMap.2 ⟨part, hpart, ?_⟩
  rw [hprefixes]
  exact hp

theorem declareModule_congr (h : c'.SameOn c (r.deviationPairs s)) (rank : Nat) :
    declareModule r c' rank s = declareModule r c rank s := by
  unfold declareModule
  refine check_bind_congr fun submodules hincluded => check_bind_congr fun own hown => ?_
  refine bind_congr fun target => bind_congr fun _ => ?_
  refine congrArg (· >>= fun _ => pure target) (forM_congr fun part hpart => ?_)
  refine check_bind_congr fun prefixes hprefixes => ?_
  exact Setting.declareSource_under (k := ⟨{ prefixes with own }, target, rank, c⟩) fun p hp =>
    h p (Registry.mem_deviationPairs hincluded hown hpart hprefixes hp)

theorem declareModules_congr (h : ∀ s ∈ order, s.isSubmodule = false →
    c'.SameOn c (r.deviationPairs s)) : declareModules r c' order = declareModules r c order := by
  refine mapM_congr fun p hp => ?_
  have hmem := List.mem_filter.1 (List.fst_mem_of_mem_zipIdx hp)
  exact declareModule_congr (h p.1 hmem.1 (by simpa using hmem.2)) p.2

/-- What declared modules ask is about other modules. -/
theorem gives_declareModule_foreign (w : Workspace) (rank : Nat) :
    Gives (declareModule r c rank s) w fun _ _ => ∀ p ∈ r.deviationPairs s, p.target ≠ p.deviating := by
  unfold declareModule
  rw [gives_bind, gives_check]
  intro submodules hincluded
  rw [gives_bind, gives_check]
  intro own hown
  rw [gives_bind]
  intro target w₁ _
  rw [gives_bind, gives_modify, gives_bind]
  refine (gives_forM (I := fun done _ => ∀ part ∈ done, ∀ prefixes, Prefixes.ofSource r part = .ok prefixes →
    ∀ p ∈ part.root.children.filterMap { prefixes with own }.deviationPair?, p.target ≠ p.deviating)
    _ (by simp) ?_).mono ?_
  · intro pre part post w₂ _ hpre
    rw [gives_bind, gives_check]
    intro prefixes hprefixes
    refine (Setting.gives_declareSource_foreign _ part.root w₂).mono fun _ _ hpart => ?_
    intro part' hmem prefixes' hprefixes'
    rcases List.mem_append.1 hmem with hmem | hmem
    · exact hpre part' hmem prefixes' hprefixes'
    · obtain rfl := List.mem_singleton.1 hmem
      rw [hprefixes] at hprefixes'
      cases hprefixes'
      exact hpart
  · intro _ w₂ hparts
    rw [gives_pure]
    intro p hp
    unfold Registry.deviationPairs at hp
    rw [hincluded, hown] at hp
    obtain ⟨part, hpart, hp⟩ := List.mem_flatMap.1 hp
    split at hp
    · next prefixes hprefixes => exact hparts part hpart prefixes hprefixes p hp
    · cases hp

theorem gives_declareModules_foreign (w : Workspace) : Gives (declareModules r c order) w fun _ _ =>
    ∀ s ∈ order, s.isSubmodule = false → ∀ p ∈ r.deviationPairs s, p.target ≠ p.deviating := by
  refine (gives_mapM (I := fun done _ _ => ∀ x ∈ done, ∀ p ∈ r.deviationPairs x.1,
    p.target ≠ p.deviating) _ (by simp) ?_).mono ?_
  · intro pre x post _ w₁ _ hpre
    refine (gives_declareModule_foreign w₁ x.2).mono fun _ _ hx => ?_
    exact List.forall_mem_append.2 ⟨hpre, by simpa using hx⟩
  · intro _ _ hall s hs hsub
    have hmem : s ∈ order.filter (!·.isSubmodule) := List.mem_filter.2 ⟨hs, by simpa using hsub⟩
    obtain ⟨i, hi, rfl⟩ := List.mem_iff_getElem.1 hmem
    exact hall (_, i) (List.mk_mem_zipIdx_iff_getElem?.2 (List.getElem?_eq_getElem hi))

end

/-! ## Builds -/

section

variable {r : Registry} {order : List Source} {sources : List ParsedSource} {c c' : BuildConfig}

/-- The phases of a build up to the declarations. -/
def declaredModules (sources : List ParsedSource) (config : BuildConfig) :
    Except BuildFailure (List ModuleId × Workspace) := do
  let r ← Phase.sourcePreLinkage.run (collectSources sources)
  let order ← Phase.linkage.run r.link
  Phase.statementDefinition.run (checkPrefixes r order)
  Phase.fullDeclaration.run ((declareModules r config order).run {})

theorem buildSchema_eq_declaredModules (sources : List ParsedSource) (config : BuildConfig) :
    buildSchema sources config = declaredModules sources config >>= fun x =>
      Phase.effectiveModel.run ((effectiveModel x.2.tasks x.1).perform x.2.draft).1 := by
  unfold buildSchema declaredModules
  simp only [bind_assoc]

theorem Phase.phase_of_run {α : Type} {p : Phase} {x : Except Fault α} {f : BuildFailure}
    (h : p.run x = .error f) : f.phase = p := by
  cases x with
  | error g =>
    cases h
    rfl
  | ok a => cases h

/-- Up to the declarations the configuration makes no difference but for deviation tasks. -/
theorem agree_declaredModules (sources : List ParsedSource) (c c' : BuildConfig) :
    Agree (fun x y => x.1 = y.1 ∧ x.2.Alike y.2) (declaredModules sources c)
      (declaredModules sources c') := by
  unfold declaredModules
  refine (Agree.refl _).bind fun r _ _ h => ?_
  subst h
  refine (Agree.refl _).bind fun order _ _ h => ?_
  subst h
  refine (Agree.refl _).bind fun _ _ _ _ => Agree.run ?_ _
  exact alike_declareModules r c c' order {} {} (.refl {})

theorem mem_deviationPairs {p : DeviationPair} (hr : collectSources sources = .ok r)
    (hlink : r.link = .ok order) :
    p ∈ deviationPairs sources ↔ ∃ s ∈ order, s.isSubmodule = false ∧ p ∈ r.deviationPairs s := by
  unfold deviationPairs
  rw [hr, List.mem_flatMap]
  simp only [List.mem_filter, (Registry.sorted_of_link hlink).2.mem_iff, Bool.not_eq_true', and_assoc]

/-- Before the effective model a build asks nothing but `deviationPairs`. -/
theorem declaredModules_congr (h : c'.SameOn c (deviationPairs sources)) :
    declaredModules sources c' = declaredModules sources c := by
  unfold declaredModules
  refine ((Agree.refl _).bind fun r _ hr heq => ?_).eq
  subst heq
  refine (Agree.refl _).bind fun order _ hlink heq => ?_
  subst heq
  rw [Phase.run_eq_ok] at hr hlink
  have hasked : ∀ s ∈ order, s.isSubmodule = false → c'.SameOn c (r.deviationPairs s) :=
    fun s hs hsub p hp => h p ((mem_deviationPairs hr hlink).2 ⟨s, hs, hsub, hp⟩)
  rw [declareModules_congr hasked]
  exact (Agree.refl _).bind fun _ _ _ _ => .refl _

/-- Modules that deviate themselves are not declared. -/
theorem foreign_of_declaredModules {x : List ModuleId × Workspace}
    (h : declaredModules sources c = .ok x) : ∀ p ∈ deviationPairs sources, p.target ≠ p.deviating := by
  obtain ⟨r, hr, h⟩ := exists_of_bind_eq_ok h
  obtain ⟨order, hlink, h⟩ := exists_of_bind_eq_ok h
  obtain ⟨_, -, h⟩ := exists_of_bind_eq_ok h
  rw [Phase.run_eq_ok] at hr hlink h
  have hforeign := gives_declareModules_foreign {} x.1 x.2 h
  intro p hp
  obtain ⟨s, hs, hsub, hp⟩ := (mem_deviationPairs hr hlink).1 hp
  exact hforeign s hs hsub p hp

theorem phase_of_bind {α β : Type} {x : Except BuildFailure α} {k : α → Except BuildFailure β}
    {ps : List Phase} (hx : ∀ f, x = .error f → f.phase ∈ ps)
    (hk : ∀ a f, k a = .error f → f.phase ∈ ps) : ∀ f, (x >>= k) = .error f → f.phase ∈ ps := by
  intro f hf
  cases x with
  | error g =>
    cases hf
    exact hx _ rfl
  | ok a => exact hk a f hf

theorem phase_of_declaredModules : ∀ f, declaredModules sources c = .error f →
    f.phase ∈ [.sourcePreLinkage, .linkage, .statementDefinition, .fullDeclaration] := by
  unfold declaredModules
  refine phase_of_bind (fun f hf => by simp [Phase.phase_of_run hf]) fun r => ?_
  refine phase_of_bind (fun f hf => by simp [Phase.phase_of_run hf]) fun order => ?_
  refine phase_of_bind (fun f hf => by simp [Phase.phase_of_run hf]) fun _ f hf => ?_
  simp [Phase.phase_of_run hf]

end

/-- The configuration acts only through its answers to what the declared deviations ask.  A build that
fails before the effective model fails with the same fault in the same phase under every
configuration, as it does if a module deviates itself; configurations that answer alike lead to the
same outcome; so honouring every deviation and honouring those that a matrix lists is the same if
the matrix lists what is asked. -/
theorem buildSchema_of_answers (sources : List ParsedSource) (c c' : BuildConfig) :
    (∀ f, buildSchema sources c = .error f → f.phase ≠ .effectiveModel →
      buildSchema sources c' = .error f) ∧
    (∀ p ∈ deviationPairs sources, p.target = p.deviating →
      ∃ f, f.phase ≠ .effectiveModel ∧ buildSchema sources c = .error f) ∧
    (c.SameOn c' (deviationPairs sources) → buildSchema sources c = buildSchema sources c') ∧
    (∀ m : DeviationMatrix, (∀ p, p ∈ m.pairs ↔ p ∈ deviationPairs sources) →
      buildSchema sources ⟨.all⟩ = buildSchema sources (.withMatrix m)) ∧
    ∀ p, p ∈ (DeviationMatrix.ofPairs (deviationPairs sources)).pairs ↔ p ∈ deviationPairs sources := by
  have hsame : ∀ c c' : BuildConfig, c.SameOn c' (deviationPairs sources) →
      buildSchema sources c = buildSchema sources c' := by
    intro c c' h
    rw [buildSchema_eq_declaredModules, buildSchema_eq_declaredModules, declaredModules_congr h]
  refine ⟨fun f hf hphase => ?_, fun p hp hself => ?_, hsame c c', fun m hm => ?_,
    fun _ => DeviationMatrix.mem_ofPairs⟩
  · rw [buildSchema_eq_declaredModules] at hf ⊢
    cases hc : declaredModules sources c with
    | error g =>
      have hagree := agree_declaredModules sources c c'
      rw [hc] at hf hagree
      generalize declaredModules sources c' = x at hagree
      cases hagree
      exact hf
    | ok x =>
      rw [hc] at hf
      exact absurd (Phase.phase_of_run hf) hphase
  · cases hc : declaredModules sources c with
    | error f =>
      refine ⟨f, fun hphase => ?_, ?_⟩
      · have hearly := phase_of_declaredModules f hc
        rw [hphase] at hearly
        exact absurd hearly (by decide)
      rw [buildSchema_eq_declaredModules, hc]
      rfl
    | ok x => exact absurd hself (foreign_of_declaredModules hc p hp)
  · exact hsame _ _ (DeviationMatrix.sameOn_all fun p hp => (hm p).2 hp)

/-- A module with a leaf. -/
def deviatedSource : ParsedSource where
  label := "m.yang"
  root := .ok {
    keyword := .word .moduleWord
    argument := some "m"
    children := [
      { keyword := .word .namespaceWord, argument := some "urn:m" },
      { keyword := .word .prefixWord, argument := some "m" },
      { keyword := .word .leaf, argument := some "x" }] }

/-- A module that takes the leaf out. -/
def withdrawingSource : ParsedSource where
  label := "n.yang"
  root := .ok {
    keyword := .word .moduleWord
    argument := some "n"
    children := [
      { keyword := .word .namespaceWord, argument := some "urn:n" },
      { keyword := .word .prefixWord, argument := some "n" },
      { keyword := .word .importWord, argument := some "m"
        children := [{ keyword := .word .prefixWord, argument := some "m" }] },
      { keyword := .word .deviation, argument := some "/m:x"
        children := [{ keyword := .word .deviate, argument := some "not-supported" }] }] }

/-- The leaf is taken out under a matrix with the one pair that is asked for, and under the empty
matrix it is not. -/
theorem buildSchema_of_answers_withdrawingSource :
    ∃ pair, deviationPairs [deviatedSource, withdrawingSource] = [pair] ∧
      buildSchema [deviatedSource, withdrawingSource] ⟨.all⟩ =
        buildSchema [deviatedSource, withdrawingSource] (.withMatrix (.ofPairs [pair])) ∧
      buildSchema [deviatedSource, withdrawingSource] ⟨.all⟩ ≠
        buildSchema [deviatedSource, withdrawingSource] .withoutDeviations := by
  have hpairs : (only? (deviationPairs [deviatedSource, withdrawingSource])).isSome = true := by
    decide +kernel
  have hall : (buildSchema [deviatedSource, withdrawingSource] ⟨.all⟩).toOption.any (fun schema =>
      schema.modules.all (·.topLevel.isEmpty)) = true := by decide +kernel
  have hnone : (buildSchema [deviatedSource, withdrawingSource] .withoutDeviations).toOption.any
      (fun schema => schema.modules.all (·.topLevel.isEmpty)) = false := by decide +kernel
  obtain ⟨pair, hpair⟩ := Option.isSome_iff_exists.1 hpairs
  rw [only?_eq_some] at hpair
  obtain ⟨-, -, -, hmatrix, hlists⟩ :=
    buildSchema_of_answers [deviatedSource, withdrawingSource] ⟨.all⟩ .withoutDeviations
  refine ⟨pair, hpair, ?_, fun heq => ?_⟩
  · rw [← hpair]
    exact hmatrix _ hlists
  · rw [heq, hnone] at hall
    cases hall

end YangSchema
