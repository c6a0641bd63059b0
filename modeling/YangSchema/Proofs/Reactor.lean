import YangSchema.Proofs.Building
import YangSchema.Proofs.Resolution
import YangSchema.Reactor

/-!
# What the reactor looks up

All that is registered has its root, and once the prefixes are bound all that is registered has its
context (`Reactor.Rooted`, `Reactor.Bound`).  So no look-up by key is in vain, and the reactor builds
what `buildSchema` builds (`Reactor.build_eq_buildSchema`).
-/

namespace YangSchema

open Declare

namespace Reactor

variable {x : Reactor} {r : Registry} {s : Source} {order : List Source}

theorem get?_key (hs : s ∈ r.sources) : r.get? s.key = some s := by
  cases h : r.get? s.key with
  | none => exact absurd rfl (Registry.get?_eq_none.1 h s hs)
  | some t =>
    have hkey : t.key = s.key := by simpa using List.find?_some h
    rw [Registry.eq_of_key_eq (List.mem_of_find?_eq_some h) hs hkey]

/-! ## Roots -/

/-- The root of every registered source is kept. -/
def Rooted (x : Reactor) : Prop := ∀ s ∈ x.registry.sources, x.roots.get? s.key = some s.root

theorem Rooted.register (h : x.Rooted) (hr : x.registry.register s = .ok r) :
    Rooted { x with registry := r, roots := x.roots.insert s.key s.root } := by
  unfold Registry.register at hr
  split at hr
  · cases hr
  next hnew =>
  cases hr
  rw [Registry.get?_eq_none] at hnew
  have hput : (insertBy Source.key s x.registry.sources).Perm (s :: x.registry.sources) :=
    perm_insertBy fun t ht heq => hnew t ht (Std.LawfulEqOrd.eq_of_compare heq).symm
  intro t ht
  show (x.roots.insert s.key s.root).get? t.key = some t.root
  rw [SourceMap.get?_insert]
  rcases List.mem_cons.1 (hput.mem_iff.1 ht) with rfl | ht
  · simp
  · rw [if_neg (by simpa using (hnew t ht).symm)]
    exact h t ht

theorem agree_preLinkSource (h : x.Rooted) (p : ParsedSource) :
    Agree (fun r x' => x'.registry = r ∧ x'.config = x.config ∧ x'.Rooted)
      (do x.registry.register (← p.analyze)) (x.preLinkSource p) := by
  unfold preLinkSource ParsedSource.analyze
  cases p.root with
  | error message => exact .error _
  | ok root =>
    show Agree _ (Source.analyze p.label root >>= x.registry.register)
      (Source.analyze p.label root >>= _)
    refine (Agree.refl _).bind fun s _ hs => ?_
    rintro rfl
    obtain rfl := (Source.of_analyze hs).1
    cases hr : x.registry.register s with
    | error f => exact .error f
    | ok r => exact .ok ⟨rfl, rfl, h.register hr⟩

theorem agree_preLink (sources : List ParsedSource) (config : BuildConfig) :
    Agree (fun r (x : Reactor) => x.registry = r ∧ x.config = config ∧ x.Rooted)
      (collectSources sources) (preLink { config } sources) := by
  refine Agree.foldlM ?_ sources _ _ ⟨rfl, rfl, fun s hs => (by cases hs)⟩
  rintro _ x ⟨rfl, rfl, hx⟩ p
  exact agree_preLinkSource hx p

theorem agree_link (x : Reactor) :
    Agree (fun order keys => keys = order.map Source.key) x.registry.link x.link := by
  unfold link
  cases x.registry.link with
  | error f => exact .error f
  | ok order => exact .ok rfl

/-! ## Contexts -/

/-- The prefixes of the sources are bound, and kept. -/
def Bound (x : Reactor) (order : List Source) : Prop :=
  ∀ s ∈ order, ∃ b, Prefixes.ofSource x.registry s = .ok b ∧ x.contexts.get? s.key = some b

theorem Bound.insert (h : x.Bound order) (horder : order ⊆ x.registry.sources)
    (hs : s ∈ x.registry.sources) {b : Prefixes} (hb : Prefixes.ofSource x.registry s = .ok b) :
    Bound { x with contexts := x.contexts.insert s.key b } (order ++ [s]) := by
  intro t ht
  rw [SourceMap.get?_insert]
  rcases eq_or_ne s.key t.key with hkey | hne
  · have ht : t ∈ x.registry.sources := by
      rcases List.mem_append.1 ht with ht | ht
      · exact horder ht
      · rwa [List.mem_singleton.1 ht]
    obtain rfl := Registry.eq_of_key_eq hs ht hkey
    exact ⟨b, hb, by simp⟩
  · rw [if_neg (by simpa using hne)]
    rcases List.mem_append.1 ht with ht | ht
    · exact h t ht
    · exact absurd (congrArg Source.key (List.mem_singleton.1 ht)).symm hne

theorem effectiveIdentity_of_ofSource {b : Prefixes} (h : Prefixes.ofSource r s = .ok b) :
    r.effectiveIdentity s = .ok b.own := by
  obtain ⟨own, hown, h⟩ := exists_of_bind_eq_ok h
  have hkept : b.own = own := by
    refine foldlM_keeps (p := fun b : Prefixes => b.own = own) (fun b hb i _ b' hb' => ?_) rfl h
    obtain ⟨target, -, hb'⟩ := exists_of_bind_eq_ok hb'
    obtain ⟨m, -, hb'⟩ := exists_of_bind_eq_ok hb'
    unfold Prefixes.add at hb'
    split at hb'
    · cases hb'
    · cases hb'
      exact hb
  rw [hown, hkept]

theorem defineSource_key (hs : s ∈ x.registry.sources) : x.defineSource s.key = (do
    let b ← located (.ofSource s.label) (Prefixes.ofSource x.registry s)
    return { x with contexts := x.contexts.insert s.key b }) := by
  unfold defineSource source
  rw [get?_key hs]
  rfl

theorem agree_define (post : List Source) : ∀ (pre : List Source) (x : Reactor),
    pre ++ post ⊆ x.registry.sources → x.Bound pre →
    Agree (fun _ x' => (∃ contexts, x' = { x with contexts }) ∧ x'.Bound (pre ++ post))
      (checkPrefixes x.registry post) (x.define (post.map Source.key)) := by
  induction post with
  | nil => exact fun pre x _ h => .ok ⟨⟨x.contexts, rfl⟩, by simpa using h⟩
  | cons s post ih =>
    intro pre x hsub h
    have hs : s ∈ x.registry.sources := hsub (by simp)
    show Agree _ (discard (located (.ofSource s.label) (Prefixes.ofSource x.registry s)) >>=
      fun _ => checkPrefixes x.registry post) (x.defineSource s.key >>= fun x => x.define _)
    rw [defineSource_key hs]
    cases hb : Prefixes.ofSource x.registry s with
    | error f => exact .error _
    | ok b =>
      have hpre : pre ⊆ x.registry.sources := fun t ht => hsub (List.mem_append_left _ ht)
      have hrest := ih (pre ++ [s]) { x with contexts := x.contexts.insert s.key b }
        (by simpa using hsub) (h.insert hpre hs hb)
      rw [List.append_assoc, List.singleton_append] at hrest
      exact hrest

/-! ## Declarations -/

theorem forM_map_congr {m : Type → Type} [Monad m] {α β : Type} {e : α → β} {f : α → m PUnit}
    {g : β → m PUnit} {l : List α} (h : ∀ a ∈ l, g (e a) = f a) : (l.map e).forM g = l.forM f := by
  induction l with
  | nil => rfl
  | cons a l ih =>
    obtain ⟨ha, hl⟩ := List.forall_mem_cons.1 h
    show g (e a) >>= (fun _ => (l.map e).forM g) = f a >>= fun _ => l.forM f
    rw [ha, ih hl]

theorem mapM_map_congr {m : Type → Type} [Monad m] [LawfulMonad m] {α β γ : Type} {e : α → β}
    {f : α → m γ} {g : β → m γ} {l : List α} (h : ∀ a ∈ l, g (e a) = f a) :
    (l.map e).mapM g = l.mapM f := by
  induction l with
  | nil => rfl
  | cons a l ih =>
    obtain ⟨ha, hl⟩ := List.forall_mem_cons.1 h
    rw [List.map_cons, List.mapM_cons, List.mapM_cons, ha, ih hl]

section Declarations

variable (hroots : x.Rooted) (hbound : x.Bound order) (horder : ∀ s, s ∈ order ↔ s ∈ x.registry.sources)
include hroots hbound horder

theorem declareSource_key (hs : s ∈ x.registry.sources) (own : ModuleIdentity) (target : ModuleId)
    (rank : Nat) : x.declareSource own target rank s.key = (do
      let prefixes ← Declare.check (Prefixes.ofSource x.registry s)
      let k : Setting := { prefixes := { prefixes with own }, target, rank, config := x.config }
      k.declareSource s.root) := by
  obtain ⟨b, hb, hcontext⟩ := hbound s ((horder s).2 hs)
  unfold declareSource root context
  rw [hroots s hs, hcontext, hb]
  rfl

theorem declareModule_key (rank : Nat) (hs : s ∈ x.registry.sources) :
    x.declareModule rank s.key = YangSchema.declareModule x.registry x.config rank s := by
  obtain ⟨b, hb, hcontext⟩ := hbound s ((horder s).2 hs)
  unfold declareModule YangSchema.declareModule source context
  rw [get?_key hs, hcontext, effectiveIdentity_of_ofSource hb]
  simp only [found, check_ok_bind]
  refine check_bind_congr fun submodules hsubmodules => ?_
  refine bind_congr fun target => bind_congr fun _ => ?_
  have hparts : ∀ part ∈ s :: submodules, part ∈ x.registry.sources := fun part hpart =>
    (List.mem_cons.1 hpart).elim (fun h => h ▸ hs) (Registry.mem_of_includedBy hsubmodules)
  rw [← List.map_cons, forM_map_congr fun part hpart =>
    declareSource_key hroots hbound horder (hparts part hpart) b.own target rank]

theorem declare_keys :
    x.declare (order.map Source.key) = declareModules x.registry x.config order := by
  have hmem : ∀ s ∈ order, s ∈ x.registry.sources := fun s => (horder s).1
  have hfilter : (order.map Source.key).filter (fun k => (x.registry.get? k).any (!·.isSubmodule)) =
      (order.filter (!·.isSubmodule)).map Source.key := by
    rw [List.filter_map]
    refine congrArg _ (List.filter_congr fun s hs => ?_)
    simp only [Function.comp_apply, get?_key (hmem s hs), Option.any_some]
  unfold declare declareModules
  simp only [hfilter, List.zipIdx_map]
  refine mapM_map_congr fun p hp => ?_
  have hp : p.1 ∈ order := List.mem_of_mem_filter (List.fst_mem_of_mem_zipIdx hp)
  exact declareModule_key hroots hbound horder p.2 (hmem _ hp)

end Declarations

/-! ## Whole builds -/

/-- The reactor builds what the phases build in turn, and fails as they do. -/
theorem build_eq_buildSchema (sources : List ParsedSource) (config : BuildConfig) :
    build sources config = buildSchema sources config := by
  symm
  refine Agree.eq ?_
  unfold build buildSchema
  refine ((agree_preLink sources config).run _).bind ?_
  rintro _ x - ⟨rfl, rfl, hroots⟩
  refine ((agree_link x).run _).bind ?_
  rintro order _ hlink rfl
  have hperm := (Registry.sorted_of_link (Phase.run_eq_ok.1 hlink)).2
  have hempty : x.Bound [] := fun s hs => by cases hs
  refine ((agree_define order [] x (fun s => hperm.mem_iff.1) hempty).run _).bind ?_
  rintro - _ - ⟨⟨contexts, rfl⟩, hbound⟩
  have hroots : Rooted { x with contexts } := hroots
  rw [List.nil_append] at hbound
  rw [declare_keys hroots hbound fun s => hperm.mem_iff]
  exact .refl _

end Reactor

end YangSchema
