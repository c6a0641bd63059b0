import YangSchema.Proofs.Declaration.Entries
import YangSchema.Proofs.LinkageOrder

/-!
# Submodules

`Registry.includedBy` goes through the includes of a module with a list of sources that are still to be
looked at.  Where all references lead somewhere, it comes to an end, with each submodule that the module
reaches through includes, once, and nothing else (`Resolves.includedBy`).

So a module of a draft lists what the statements of its own source and of each of these submodules give,
every one of them once (`submodules_mergedOnce`).
-/

namespace YangSchema

open Relation Draft Declare

namespace Registry

variable {r : Registry} {s t including : Source} {pending found : List Source}

/-! ## Gathering -/

/-- Takes one include of `including`: a submodule that is not found yet is found, and has to wait. -/
def takeInclude (r : Registry) (including : Source) :
    List Source × List Source → Include → Except Fault (List Source × List Source) :=
  fun (pending, found) i => do
    let sub ← r.resolveInclude including i
    if found.any (·.key == sub.key) then return (pending, found)
    else return (sub :: pending, found ++ [sub])

theorem gatherIncludes_cons (fuel : Nat) : r.gatherIncludes (fuel + 1) (including :: pending) found =
    (including.includes.reverse.foldlM (r.takeInclude including) (pending, found)) >>=
      fun x => r.gatherIncludes fuel x.1 x.2 := rfl

/-- All that is found is in the registry, each once. -/
structure Found (r : Registry) (found : List Source) : Prop where
  nodup : (found.map Source.key).Nodup
  mem : ∀ t ∈ found, t ∈ r.sources

theorem Found.length_le (h : r.Found found) : found.length ≤ r.size :=
  (h.nodup.of_map _).subperm (fun t ht => h.mem t ht) |>.length_le

/-- A source that is not found yet is found. -/
theorem Found.concat (h : r.Found found) (ht : t ∈ r.sources) (hnew : t ∉ found) :
    r.Found (found ++ [t]) where
  nodup := by
    rw [List.map_append, List.nodup_append]
    refine ⟨h.nodup, by simp, ?_⟩
    simp only [List.map_cons, List.map_nil, List.mem_singleton, List.mem_map]
    rintro _ ⟨t', ht', rfl⟩ _ rfl hkey
    exact hnew (eq_of_key_eq (h.mem t' ht') ht hkey ▸ ht')
  mem := by simpa [or_imp, forall_and, ht] using h.mem

/-- The includes of `including` are followed in turn, where `found` is known already: `new` are those
that are met for the first time. -/
inductive Meets (r : Registry) (including : Source) : List Source → List Include → List Source → Prop
  | nil {found : List Source} : Meets r including found [] []
  | old {found : List Source} {i : Include} {l : List Include} {t : Source} {new : List Source}
      (resolves : r.resolveInclude including i = .ok t) (known : t ∈ found)
      (rest : Meets r including found l new) : Meets r including found (i :: l) new
  | new {found : List Source} {i : Include} {l : List Include} {t : Source} {new : List Source}
      (resolves : r.resolveInclude including i = .ok t) (unknown : t ∉ found)
      (rest : Meets r including (found ++ [t]) l new) : Meets r including found (i :: l) (t :: new)

namespace Meets

variable {l : List Include} {new : List Source} (h : r.Meets including found l new)
include h

theorem includes (hl : l ⊆ including.includes) : ∀ t ∈ new, r.Includes including t := by
  induction h with
  | nil => simp
  | old _ _ _ ih => exact ih (List.cons_subset.1 hl).2
  | new hresolves _ _ ih =>
    obtain ⟨hi, hl⟩ := List.cons_subset.1 hl
    exact List.forall_mem_cons.2 ⟨⟨_, hi, hresolves⟩, ih hl⟩

theorem exists_mem : ∀ i ∈ l, ∃ t ∈ found ++ new, r.resolveInclude including i = .ok t := by
  induction h with
  | nil => simp
  | old hresolves hknown _ ih =>
    exact List.forall_mem_cons.2 ⟨⟨_, List.mem_append_left _ hknown, hresolves⟩, ih⟩
  | @new found i l t new hresolves _ _ ih =>
    refine List.forall_mem_cons.2 ⟨⟨t, by simp, hresolves⟩, fun j hj => ?_⟩
    obtain ⟨u, hu, hj⟩ := ih j hj
    exact ⟨u, by simpa using hu, hj⟩

theorem unique {new' : List Source} (h' : r.Meets including found l new') : new = new' := by
  induction h generalizing new' with
  | nil =>
    cases h'
    rfl
  | old hresolves hknown _ ih =>
    cases h' with
    | old _ _ hrest => exact ih hrest
    | new hresolves' hunknown _ =>
      rw [hresolves] at hresolves'
      cases hresolves'
      exact absurd hknown hunknown
  | new hresolves hunknown _ ih =>
    cases h' with
    | old hresolves' hknown _ =>
      rw [hresolves] at hresolves'
      cases hresolves'
      exact absurd hknown hunknown
    | new hresolves' _ hrest =>
      rw [hresolves] at hresolves'
      cases hresolves'
      rw [ih hrest]

end Meets

/-- The includes of one source are taken in turn: what was not found yet waits in front. -/
theorem Resolves.takeIncludes (h : r.Resolves) (hs : including ∈ r.sources) (pending : List Source)
    {l : List Include} (hl : l ⊆ including.includes) (hfound : r.Found found) :
    ∃ new, r.Meets including found l new ∧ r.Found (found ++ new) ∧
      l.foldlM (r.takeInclude including) (pending, found) =
        .ok (new.reverse ++ pending, found ++ new) := by
  induction l generalizing pending found with
  | nil => exact ⟨[], .nil, by simpa using hfound, by simp; rfl⟩
  | cons i l ih =>
    rw [List.cons_subset] at hl
    obtain ⟨t, ht⟩ := h.includes including hs i hl.1
    have hmem := mem_of_resolveInclude ht
    have hstep : (i :: l).foldlM (r.takeInclude including) (pending, found) =
        (if found.any (·.key == t.key) then .ok (pending, found)
          else .ok (t :: pending, found ++ [t])) >>= l.foldlM (r.takeInclude including) := by
      rw [List.foldlM_cons, takeInclude, ht]
      rfl
    rw [hstep]
    split
    · next hany =>
      -- the submodule is found already
      obtain ⟨t', ht', hkey⟩ := List.any_eq_true.1 hany
      obtain rfl := eq_of_key_eq (hfound.mem t' ht') hmem (by simpa using hkey)
      obtain ⟨new, hnew, hfound', hfold⟩ := ih pending hl.2 hfound
      exact ⟨new, .old ht ht' hnew, hfound', hfold⟩
    · next hany =>
      have hunknown : t ∉ found := fun hmem => hany (List.any_eq_true.2 ⟨t, hmem, by simp⟩)
      obtain ⟨new, hnew, hfound', hfold⟩ := ih (t :: pending) hl.2 (hfound.concat hmem hunknown)
      refine ⟨t :: new, .new ht hunknown hnew, by simpa using hfound', ?_⟩
      show l.foldlM (r.takeInclude including) (t :: pending, found ++ [t]) = _
      simpa using hfold

/-- The sources that wait are opened one after the other.  Of the one in front the includes are met from
the last to the first, and then those that were met are opened, the one that was met last before the
others, and all of them before what waited behind. -/
inductive Opens (r : Registry) : List Source → List Source → List Source → Prop
  | done {found : List Source} : Opens r [] found found
  | next {including : Source} {pending found new subs : List Source}
      (met : r.Meets including found including.includes.reverse new)
      (rest : Opens r (new.reverse ++ pending) (found ++ new) subs) :
      Opens r (including :: pending) found subs

/-- There is one order in which sources are opened. -/
theorem Opens.unique {subs subs' : List Source} (h : r.Opens pending found subs)
    (h' : r.Opens pending found subs') : subs = subs' := by
  induction h generalizing subs' with
  | done =>
    cases h'
    rfl
  | next hmet _ ih =>
    cases h' with
    | next hmet' hrest =>
      obtain rfl := hmet.unique hmet'
      exact ih hrest

/-- Between two rounds: what is found is reached from `s`, and of all that is looked at already the
includes are found. -/
structure Gathers (r : Registry) (s : Source) (pending found : List Source) : Prop
    extends r.Found found where
  reached : ∀ t ∈ found, TransGen r.Includes s t
  waiting : ∀ t ∈ pending, t = s ∨ t ∈ found
  done : ∀ t, t = s ∨ t ∈ found → t ∈ pending ∨ ∀ u, r.Includes t u → u ∈ found

theorem Gathers.start (r : Registry) (s : Source) : r.Gathers s [s] [] where
  nodup := .nil
  mem := by simp
  reached := by simp
  waiting := by simp
  done := by simp

/-- When nothing waits, all that is reached is found. -/
theorem Gathers.mem_iff (h : r.Gathers s [] found) (t : Source) :
    t ∈ found ↔ TransGen r.Includes s t := by
  have hdone : ∀ t, t = s ∨ t ∈ found → ∀ u, r.Includes t u → u ∈ found := fun t ht =>
    (h.done t ht).resolve_left (by simp)
  refine ⟨h.reached t, fun ht => ?_⟩
  induction ht with
  | single hst => exact hdone s (.inl rfl) _ hst
  | tail _ htu ih => exact hdone _ (.inr ih) _ htu

/-- One round looks at the source in front. -/
theorem Gathers.next (h : r.Gathers s (including :: pending) found) {new : List Source}
    (hfound : r.Found (found ++ new)) (hnew : ∀ t ∈ new, r.Includes including t)
    (hall : ∀ t, r.Includes including t → t ∈ found ++ new) :
    r.Gathers s (new.reverse ++ pending) (found ++ new) := by
  have hreached : ∀ t ∈ new, TransGen r.Includes s t := by
    intro t ht
    rcases h.waiting including List.mem_cons_self with rfl | hmem
    · exact .single (hnew t ht)
    · exact .tail (h.reached including hmem) (hnew t ht)
  refine { hfound with reached := ?_, waiting := ?_, done := ?_ }
  · intro t ht
    exact (List.mem_append.1 ht).elim (h.reached t) (hreached t)
  · intro t ht
    rcases List.mem_append.1 ht with ht | ht
    · exact .inr (List.mem_append_right _ (List.mem_reverse.1 ht))
    · exact (h.waiting t (List.mem_cons_of_mem _ ht)).imp_right (List.mem_append_left _)
  · intro t ht
    have hold : t = s ∨ t ∈ found → t ∈ new.reverse ++ pending ∨
        ∀ u, r.Includes t u → u ∈ found ++ new := by
      intro ht
      rcases h.done t ht with hmem | hdone
      · rcases List.mem_cons.1 hmem with rfl | hmem
        · exact .inr hall
        · exact .inl (List.mem_append_right _ hmem)
      · exact .inr fun u hu => List.mem_append_left _ (hdone u hu)
    rcases ht with rfl | ht
    · exact hold (.inl rfl)
    · rcases List.mem_append.1 ht with ht | ht
      · exact hold (.inr ht)
      · exact .inl (List.mem_append_left _ (List.mem_reverse.2 ht))

/-- Every source waits once at most, so `n` rounds are enough if there are no more sources that wait or
are not found yet. -/
theorem Resolves.gatherIncludes (h : r.Resolves) (hs : s ∈ r.sources) (n : Nat) :
    ∀ pending found, r.Gathers s pending found → pending.length + r.size ≤ n + found.length →
      ∃ subs, r.Gathers s [] subs ∧ r.Opens pending found subs ∧
        ∀ fuel, n ≤ fuel → r.gatherIncludes fuel pending found = .ok subs := by
  induction n with
  | zero =>
    intro pending found hgathers hle
    have := hgathers.length_le
    obtain rfl : pending = [] := List.length_eq_zero_iff.1 (by omega)
    exact ⟨found, hgathers, .done, fun fuel _ => by cases fuel <;> rfl⟩
  | succ n ih =>
    intro pending found hgathers hle
    cases pending with
    | nil => exact ⟨found, hgathers, .done, fun fuel _ => by cases fuel <;> rfl⟩
    | cons including pending =>
      have hincluding : including ∈ r.sources := by
        rcases hgathers.waiting including List.mem_cons_self with rfl | hmem
        · exact hs
        · exact hgathers.mem including hmem
      obtain ⟨new, hmet, hfound, hfold⟩ := h.takeIncludes hincluding pending
        (List.reverse_subset.2 (List.Subset.refl _)) hgathers.toFound
      have hnext := hgathers.next hfound (hmet.includes (List.reverse_subset.2 (List.Subset.refl _)))
        fun t ⟨i, hi, ht⟩ => by
          obtain ⟨t', ht', hit⟩ := hmet.exists_mem i (List.mem_reverse.2 hi)
          rw [ht] at hit
          cases hit
          exact ht'
      obtain ⟨subs, hsubs, hopens, hrun⟩ := ih _ _ hnext (by simp at hle ⊢; omega)
      refine ⟨subs, hsubs, .next hmet hopens, fun fuel hfuel => ?_⟩
      obtain ⟨fuel, rfl⟩ := Nat.exists_eq_add_of_le' (Nat.lt_of_lt_of_le (Nat.succ_pos n) hfuel)
      rw [gatherIncludes_cons, hfold]
      exact hrun fuel (by omega)

/-- The sources that `s` reaches through includes, each once. -/
structure Submodules (r : Registry) (s : Source) (subs : List Source) : Prop where
  nodup : (subs.map Source.key).Nodup
  mem_iff : ∀ t, t ∈ subs ↔ TransGen r.Includes s t

/-- The sources are gathered by opening one after the other, however much fuel is left. -/
theorem Resolves.opens (h : r.Resolves) (hs : s ∈ r.sources) :
    ∃ subs, r.Submodules s subs ∧ r.Opens [s] [] subs ∧
      ∀ fuel, r.size < fuel → r.gatherIncludes fuel [s] [] = .ok subs := by
  obtain ⟨subs, hsubs, hopens, hrun⟩ :=
    h.gatherIncludes hs (r.size + 1) [s] [] (.start r s) (by simp; omega)
  exact ⟨subs, ⟨hsubs.nodup, hsubs.mem_iff⟩, hopens, hrun⟩

/-- What is gathered for a source is what it reaches through includes, however much fuel is left. -/
theorem Resolves.includedBy (h : r.Resolves) (hs : s ∈ r.sources) :
    ∃ subs, r.includedBy s = .ok subs ∧ r.Submodules s subs ∧
      ∀ fuel, r.size < fuel → r.gatherIncludes fuel [s] [] = .ok subs := by
  obtain ⟨subs, hsubs, -, hrun⟩ := h.opens hs
  exact ⟨subs, hrun _ (Nat.le_refl _), hsubs, hrun⟩

/-- What was gathered for a source is all that it reaches through includes, in the order in which the
sources are opened. -/
theorem Resolves.of_includedBy (h : r.Resolves) (hs : s ∈ r.sources) {subs : List Source}
    (hsubs : r.includedBy s = .ok subs) : r.Submodules s subs ∧ r.Opens [s] [] subs := by
  obtain ⟨subs', hsubs', hopens, hrun⟩ := h.opens hs
  obtain rfl : subs = subs' := Except.ok.inj (hsubs.symm.trans (hrun _ (Nat.le_refl _)))
  exact ⟨hsubs', hopens⟩

/-! ## Merging -/

/-- What a source gives the module that is known as `own`. -/
def entries (r : Registry) (own : ModuleIdentity) (part : Source) : Except Fault (List Entry) := do
  let prefixes ← Prefixes.ofSource r part
  Prefixes.entries { prefixes with own } part.root

/-- The module `m` of the draft lists what the source `s` and the submodules gathered for it give. -/
structure Merges (r : Registry) (d : Draft) (s : Source) (m : ModuleId) : Prop where
  identity : r.effectiveIdentity s = .ok (d.module m).facts.identity
  entries : ∃ subs bodies, r.includedBy s = .ok subs ∧
    (s :: subs).mapM (r.entries (d.module m).facts.identity) = .ok bodies ∧
    d.entries m = (bodies.flatten : List Entry)

/-- The module `m`, known as `own`, lists what its parts give, all of it there. -/
structure Merged (r : Registry) (s : Source) (subs : List Source) (own : ModuleIdentity) (m : ModuleId)
    (d : Draft) : Prop where
  submodules : r.includedBy s = .ok subs
  identity : r.effectiveIdentity s = .ok own
  entries : ∃ bodies, (s :: subs).mapM (r.entries own) = .ok bodies ∧
    d.Tallies m (bodies.flatten : List Entry)

end Registry

section

variable {r : Registry} {s : Source} {w : Workspace} {config : BuildConfig} {rank : Nat}

/-- A new module lists nothing yet. -/
theorem Workspace.tallies_openModule (w : Workspace) (s : Source) (own : ModuleIdentity)
    (subs : List Source) :
    (w.openModule (s.moduleFacts own subs)).draft.Tallies ⟨w.draft.modules.size⟩ 0 := by
  have hnew : (w.openModule (s.moduleFacts own subs)).draft.module ⟨w.draft.modules.size⟩ =
      { facts := s.moduleFacts own subs } := by
    show (w.draft.withModule _).module _ = _
    rw [module_withModule_self]
  refine ⟨w.lt_openModule _, ?_, ?_⟩
  · rw [hnew]
    exact ⟨by simp, by simp, by simp, by simp⟩
  · unfold Draft.entries
    rw [hnew]
    rfl

/-- The others list what they did. -/
theorem Workspace.gains_openModule (w : Workspace) (facts : ModuleFacts) :
    w.draft.Gains 0 (w.openModule facts).draft := by
  have hnames : w.draft.KeepsNames (w.openModule facts).draft := { KeepsNames.refl w.draft with }
  refine hnames.gains (fun i hi => ?_) (Nat.le_of_lt (w.lt_openModule facts))
  show (w.draft.withModule _).module i = _
  rw [module_withModule, if_neg (Nat.ne_of_lt hi)]

/-- A declared module lists what its sources give, and the others list what they did. -/
theorem gives_declareModule_merged : Gives (declareModule r config rank s) w fun m w' =>
    (∀ i x, w.draft.Tallies i x → w'.draft.Tallies i x) ∧
      ∃ subs own, r.Merged s subs own m w'.draft := by
  refine gives_declareModule_of fun subs own hsubs hown _ => ⟨fun pre w' => ∃ bodies,
    pre.mapM (r.entries own) = .ok bodies ∧
      (w.openModule (s.moduleFacts own subs)).draft.Gains
        ((Site.module ⟨w.draft.modules.size⟩).gains (bodies.flatten : List Entry)) w'.draft, ?_, ?_, ?_⟩
  · exact ⟨[], rfl, by simpa using .refl _⟩
  · rintro pre part post w₁ - ⟨bodies, hbodies, hgains⟩ prefixes hprefixes
    refine Setting.gives_declareSource_brings.mono fun _ w₂ h => ?_
    obtain ⟨es, hes, hsum⟩ := Prefixes.exists_entries h.readable
    refine ⟨bodies ++ [es], ?_, ?_⟩
    · have hpart : r.entries own part = .ok es := by
        unfold Registry.entries
        rw [hprefixes]
        exact hes
      rw [List.mapM_append, hbodies, List.mapM_cons, List.mapM_nil, hpart]
      rfl
    · have hnew := h.gains
      rw [← hsum] at hnew
      rw [List.flatten_append, List.flatten_singleton, ← Multiset.coe_add, Site.gains_add]
      exact hgains.trans hnew
  · rintro w₁ ⟨bodies, hbodies, hgains⟩
    refine ⟨fun i x hx => ?_, subs, own, hsubs, hown, bodies, hbodies, ?_⟩
    · have := hgains i _ (w.gains_openModule _ i x hx)
      have hi : i ≠ ⟨w.draft.modules.size⟩ := by
        rintro rfl
        exact Nat.lt_irrefl _ hx.lt
      simpa [Site.gains, hi] using this
    · have := hgains _ _ (w.tallies_openModule s own subs)
      simpa [Site.gains] using this

/-- All modules list what their sources give. -/
theorem gives_declareModules_merged (r : Registry) (config : BuildConfig) (order : List Source) :
    Gives (declareModules r config order) {} fun modules w => List.Forall₂ (fun s m =>
      ∃ subs own, r.Merged s subs own m w.draft) (order.filter (!·.isSubmodule)) modules := by
  unfold declareModules
  refine (gives_mapM (I := fun pre modules w => List.Forall₂ (fun (x : Source × Nat) m =>
    ∃ subs own, r.Merged x.1 subs own m w.draft) pre modules) _ .nil ?_).mono ?_
  · rintro pre ⟨s, rank⟩ post modules w - h
    refine gives_declareModule_merged.mono fun m w' ⟨hold, hm⟩ =>
      List.rel_append (h.imp fun x i hi => ?_) (.cons hm .nil)
    obtain ⟨subs, own, hsubs, hown, bodies, hbodies, htallies⟩ := hi
    exact ⟨subs, own, hsubs, hown, bodies, hbodies, hold _ _ htallies⟩
  · intro modules w h
    rw [← List.zipIdx_map_fst 0 (order.filter (!·.isSubmodule)), List.forall₂_map_left_iff]
    exact h

end

/-- Where linking has passed, what is gathered for a source is each submodule that it reaches through
includes, once and nothing else, however much fuel is left.  And whatever is declared then, each module
of the registry lists what the statements of its own source and of these submodules give, each once. -/
theorem submodules_mergedOnce {r : Registry} {order : List Source} (h : r.link = .ok order) :
    (∀ s ∈ r.sources, ∃ subs, r.includedBy s = .ok subs ∧ r.Submodules s subs ∧
      ∀ fuel, r.size < fuel → r.gatherIncludes fuel [s] [] = .ok subs) ∧
    ∀ (config : BuildConfig) (modules : List ModuleId) (w : Workspace),
      (declareModules r config order).run {} = .ok (modules, w) →
        ∃ mods : List Source, mods.Perm (r.sources.filter (!·.isSubmodule)) ∧
          List.Forall₂ (r.Merges w.draft) mods modules := by
  refine ⟨fun s hs => (Registry.Resolves.of_link h).includedBy hs, fun config modules w hrun => ?_⟩
  refine ⟨order.filter (!·.isSubmodule), (Registry.sorted_of_link h).2.filter _, ?_⟩
  have hmerged := gives_declareModules_merged r config order modules w hrun
  have hidentity := (gives_declareModules_ranked r config order modules w hrun).2.2
  refine hmerged.mp ?_ hidentity
  rintro s m ⟨subs, own, hsubs, hown, bodies, hbodies, htallies⟩ hm
  obtain rfl : own = (w.draft.module m).facts.identity := by
    rw [hown] at hm
    cases hm
    rfl
  exact ⟨hown, subs, bodies, hsubs, hbodies, htallies.entries⟩

/-! ## An example -/

/-- A source that includes submodules of `m`. -/
def includingAll (keyword : Word) (name : String) (includes : List String) (body : List Statement) :
    ParsedSource where
  label := name ++ ".yang"
  root := .ok {
    keyword := .word keyword
    argument := some name
    children := body ++ includes.map fun sub =>
      { keyword := .word .includeWord, argument := some sub } }

/-- The parent of a submodule of `m`. -/
def belongsToM : Statement where
  keyword := .word .belongsTo
  argument := some "m"
  children := [{ keyword := .word .prefixWord, argument := some "m" }]

/-- A module with two submodules that both include a third one. -/
def sharedSubmodule : List ParsedSource := [
  includingAll .moduleWord "m" ["a", "b"] [
    { keyword := .word .namespaceWord, argument := some "urn:m" },
    { keyword := .word .prefixWord, argument := some "m" }],
  includingAll .submodule "a" ["c"] [belongsToM],
  includingAll .submodule "b" ["c"] [belongsToM],
  includingAll .submodule "c" [] [belongsToM, { keyword := .word .feature, argument := some "f" }]]

/-- What the third one defines is there once. -/
theorem submodules_mergedOnce_sharedSubmodule :
    ∃ r order modules w, collectSources sharedSubmodule = .ok r ∧ r.link = .ok order ∧
      (declareModules r {} order).run {} = .ok (modules, w) ∧
      (∃ s ∈ r.sources, ∃ subs, r.includedBy s = .ok subs ∧
        subs.map Source.name = ["b", "a", "c"] ∧ r.Submodules s subs) ∧
      (modules.map fun m => (w.draft.module m).facts.features.map (·.name.localName)) = [["f"]] ∧
      ∃ mods : List Source, mods.Perm (r.sources.filter (!·.isSubmodule)) ∧
        List.Forall₂ (r.Merges w.draft) mods modules := by
  have hcheck : ((collectSources sharedSubmodule).toOption.any fun r =>
      (r.link.toOption.any fun order =>
        (((declareModules r {} order).run {}).toOption.any fun x => decide (
          (x.1.map fun m => (x.2.draft.module m).facts.features.map (·.name.localName)) = [["f"]])) &&
        r.sources.any fun s => (r.includedBy s).toOption.any fun subs =>
          decide (subs.map Source.name = ["b", "a", "c"]))) = true := by decide +kernel
  simp only [Option.any_eq_true, List.any_eq_true, toOption_eq_some, Bool.and_eq_true,
    decide_eq_true_eq] at hcheck
  obtain ⟨r, hr, order, hlink, ⟨⟨modules, w⟩, hrun, hfeatures⟩, s, hs, subs, hsubs, hnames⟩ := hcheck
  obtain ⟨hincluded, hmerged⟩ := submodules_mergedOnce hlink
  obtain ⟨subs', hsubs', hsubmodules, -⟩ := hincluded s hs
  obtain rfl : subs = subs' := by
    rw [hsubs] at hsubs'
    cases hsubs'
    rfl
  exact ⟨r, order, modules, w, hr, hlink, hrun, ⟨s, hs, subs, hsubs, hnames, hsubmodules⟩, hfeatures,
    hmerged {} modules w hrun⟩

end YangSchema
