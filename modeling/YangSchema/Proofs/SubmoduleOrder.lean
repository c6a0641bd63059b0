import YangSchema.Proofs.IncludeOrder

/-!
# Modules with their submodules in order

A module names the submodules that were gathered for it in the order in which they were gathered, and
their bodies are declared in this order, after that of the module itself
(`submodules_lastIncludeFirst`).
-/

namespace YangSchema

open Relation Draft Declare

/-! ## What one source adds -/

/-- A data node. -/
def Entry.isChild : Entry → Bool
  | .child _ => true
  | _ => false

namespace Draft

variable {d d' : Draft} {m : ModuleId} {x y : Multiset Entry}

/-- The top-level nodes among all that a module lists. -/
theorem filter_isChild_entries (d : Draft) (m : ModuleId) :
    (d.entries m).filter (fun e => e.isChild = true) =
      ((d.childrenOf (.module m)).map fun i => Entry.child (d.node i).name : List Entry) := by
  unfold entries entriesOf
  simp only [Multiset.filter_add, Multiset.filter_coe, List.filter_map, Function.comp_def]
  simp only [Entry.isChild, Bool.false_eq_true, decide_false, decide_true, List.filter_false,
    List.filter_true, List.map_nil, Multiset.coe_nil, add_zero]
  rfl

/-- Where a module lists `y` more, the nodes among it stand after those that were there. -/
theorem Tallies.children_gained (h : d.Tallies m x) (h' : d'.Tallies m (x + y)) (hk : d.Keeps d') :
    ∃ new, d'.childrenOf (.module m) = d.childrenOf (.module m) ++ new ∧
      (new.map fun i => Entry.child (d'.node i).name : Multiset Entry) =
        y.filter (fun e => e.isChild = true) := by
  obtain ⟨new, hnew⟩ := hk.children (.module m) h.lt
  refine ⟨new, hnew.symm, ?_⟩
  have hold : ((d.childrenOf (.module m)).map fun i => Entry.child (d'.node i).name) =
      (d.childrenOf (.module m)).map fun i => Entry.child (d.node i).name :=
    List.map_congr_left fun i hi => congrArg Entry.child (hk.name i (h.covers.children i hi))
  have hall := filter_isChild_entries d' m
  rw [h'.entries, ← h.entries, Multiset.filter_add, filter_isChild_entries d m, ← hnew,
    List.map_append, hold, ← Multiset.coe_add] at hall
  exact (add_left_cancel hall).symm

end Draft

namespace Registry

variable {r : Registry} {own : ModuleIdentity} {m : ModuleId} {parts : List Source} {d d' : Draft}

/-- The nodes are those that the source gives a module that is known as `own`. -/
def Supplies (r : Registry) (own : ModuleIdentity) (d : Draft) (part : Source) (ids : List NodeId) :
    Prop :=
  ∃ es, r.entries own part = .ok es ∧
    (ids.map fun i => Entry.child (d.node i).name).Perm (es.filter Entry.isChild)

/-- The children of the module are the nodes that the sources give it, one source after the other. -/
def InTurn (r : Registry) (own : ModuleIdentity) (m : ModuleId) (parts : List Source) (d : Draft) :
    Prop :=
  ∃ lists, List.Forall₂ (r.Supplies own d) parts lists ∧ d.childrenOf (.module m) = lists.flatten

theorem Supplies.mono {part : Source} {ids : List NodeId} (h : r.Supplies own d part ids)
    (hk : d.Keeps d') (hlt : ∀ i ∈ ids, i.index < d.nodes.size) : r.Supplies own d' part ids := by
  obtain ⟨es, hes, hperm⟩ := h
  refine ⟨es, hes, ?_⟩
  rwa [List.map_congr_left fun i hi => congrArg Entry.child (hk.name i (hlt i hi))]

namespace InTurn

variable (h : r.InTurn own m parts d) {x : Multiset Entry} (hx : d.Tallies m x) (hk : d.Keeps d')
include h hx hk

/-- What was supplied is supplied still. -/
theorem supplied : ∃ lists, List.Forall₂ (r.Supplies own d') parts lists ∧
    d.childrenOf (.module m) = lists.flatten := by
  obtain ⟨lists, hlists, hflat⟩ := h
  have hlt : ∀ ids ∈ lists, ∀ i ∈ ids, i.index < d.nodes.size := fun ids hids i hi =>
    hx.covers.children i (by
      show i ∈ d.childrenOf (.module m)
      rw [hflat]
      exact List.mem_flatten.2 ⟨ids, hids, hi⟩)
  refine ⟨lists, ?_, hflat⟩
  exact (((List.forall₂_and_left _ _).2 ⟨hlt, hlists.flip⟩).imp fun ids part hids =>
    Supplies.mono hids.2 hk hids.1).flip

theorem concat {part : Source} {es : List Entry} (hes : r.entries own part = .ok es)
    (hx' : d'.Tallies m (x + es)) : r.InTurn own m (parts ++ [part]) d' := by
  obtain ⟨lists, hlists, hflat⟩ := h.supplied hx hk
  obtain ⟨new, hnew, hnames⟩ := hx.children_gained hx' hk
  refine ⟨lists ++ [new], List.rel_append hlists (.cons ⟨es, hes, ?_⟩ .nil), ?_⟩
  · rw [← Multiset.coe_eq_coe, hnames, Multiset.filter_coe]
    simp only [Bool.decide_eq_true]
  · rw [hnew, hflat, List.flatten_append, List.flatten_singleton]

/-- Where the module lists the same, its children are the same. -/
theorem keeps (hx' : d'.Tallies m x) : r.InTurn own m parts d' := by
  obtain ⟨lists, hlists, hflat⟩ := h.supplied hx hk
  obtain ⟨new, hnew, hnames⟩ := hx.children_gained (y := 0) (by simpa using hx') hk
  obtain rfl : new = [] := by simpa using hnames
  exact ⟨lists, hlists, by rw [hnew, List.append_nil, hflat]⟩

end InTurn

/-! ## Modules -/

/-- The module `m` is declared from its own source `s` and the submodules `subs`, in this order. -/
structure Composes (r : Registry) (s : Source) (subs : List Source) (own : ModuleIdentity) (m : ModuleId)
    (d : Draft) : Prop extends r.Merged s subs own m d where
  inTurn : r.InTurn own m (s :: subs) d

theorem Composes.keeps {s : Source} {subs : List Source} (h : r.Composes s subs own m d)
    (hk : d.Keeps d') (hm : ∀ x, d.Tallies m x → d'.Tallies m x) : r.Composes s subs own m d' := by
  obtain ⟨bodies, hbodies, htallies⟩ := h.entries
  exact ⟨⟨h.submodules, h.identity, bodies, hbodies, hm _ htallies⟩,
    h.inTurn.keeps htallies hk (hm _ htallies)⟩

end Registry

section

variable {r : Registry} {s : Source} {w : Workspace} {config : BuildConfig} {rank : Nat}

/-- A module is declared from its sources in turn. -/
theorem gives_declareModule_composes {modules : List ModuleId} (h : w.Declared modules) :
    Gives (declareModule r config rank s) w fun m w' =>
      ∃ subs own, r.Composes s subs own m w'.draft := by
  refine gives_declareModule_ready h fun subs own hsubs hown => ⟨fun pre w' => ∃ bodies,
    pre.mapM (r.entries own) = .ok bodies ∧
      w'.draft.Tallies ⟨w.draft.modules.size⟩ (bodies.flatten : List Entry) ∧
      r.InTurn own ⟨w.draft.modules.size⟩ pre w'.draft, ?_, ?_, ?_⟩
  · have hnone : ¬ w.draft.HasSite (.module ⟨w.draft.modules.size⟩) := Nat.lt_irrefl _
    refine ⟨[], rfl, w.tallies_openModule s own subs, [], .nil, ?_⟩
    exact (childrenOf_withModule rfl _).trans (childrenOf_of_not_hasSite hnone)
  · rintro pre part w₁ ⟨bodies, hbodies, htallies, hturn⟩ prefixes hprefixes -
    refine Setting.gives_declareSource_brings.mono fun _ w₂ h₂ hk => ?_
    obtain ⟨es, hes, hsum⟩ := Prefixes.exists_entries h₂.readable
    have hpart : r.entries own part = .ok es := by
      unfold Registry.entries
      rw [hprefixes]
      exact hes
    have htallies₂ := h₂.gains _ _ htallies
    rw [← hsum, show (Site.module ⟨w.draft.modules.size⟩).gains (es : Multiset Entry)
      ⟨w.draft.modules.size⟩ = es from if_pos rfl] at htallies₂
    refine ⟨bodies ++ [es], ?_, ?_, hturn.concat htallies hk hpart htallies₂⟩
    · rw [List.mapM_append, hbodies, List.mapM_cons, List.mapM_nil, hpart]
      rfl
    · rwa [List.flatten_append, List.flatten_singleton, ← Multiset.coe_add]
  · rintro w₁ ⟨bodies, hbodies, htallies, hturn⟩ - - - -
    exact ⟨subs, own, ⟨hsubs, hown, bodies, hbodies, htallies⟩, hturn⟩

/-- All modules are declared from their sources in turn. -/
theorem gives_declareModules_composes (r : Registry) (config : BuildConfig) (order : List Source) :
    Gives (declareModules r config order) {} fun modules w => List.Forall₂ (fun s m =>
      ∃ subs own, r.Composes s subs own m w.draft) (order.filter (!·.isSubmodule)) modules := by
  unfold declareModules
  refine (gives_mapM (I := fun pre modules w => w.Declared modules ∧
    List.Forall₂ (fun (x : Source × Nat) m => ∃ subs own, r.Composes x.1 subs own m w.draft) pre
      modules) _ ⟨Workspace.declared_empty, .nil⟩ ?_).mono ?_
  · rintro pre ⟨s, rank⟩ post modules w - ⟨h, hall⟩
    refine (((gives_declareModule r config rank s h).and (gives_declareModule_composes h)).and
      gives_declareModule_merged).mono ?_
    rintro m w' ⟨⟨⟨h', hk, -⟩, hm⟩, hold, -⟩
    refine ⟨h', List.rel_append (hall.imp fun x i hi => ?_) (.cons hm .nil)⟩
    obtain ⟨subs, own, hi⟩ := hi
    exact ⟨subs, own, hi.keeps hk (hold i)⟩
  · rintro modules w ⟨-, hall⟩
    rw [← List.zipIdx_map_fst 0 (order.filter (!·.isSubmodule)), List.forall₂_map_left_iff]
    exact hall

end

/-! ## The order of a schema -/

/-- The submodules `subs` of `s` in the order in which they are gathered: of each source the last include
first.  So the submodules that `s` includes itself come from last to first, and are all if they include
nothing.  A reader meets the same submodules, in the same order exactly if no source includes two. -/
structure Registry.LastFirst (r : Registry) (s : Source) (subs : List Source) : Prop where
  submodules : r.Submodules s subs
  opens : r.Opens [s] [] subs
  direct : ∃ new rest, r.Meets s [] s.includes.reverse new ∧ subs = new ++ rest ∧
    ((∀ t ∈ new, t.includes = []) → rest = []) ∧
    ((s.includes.map (r.resolveInclude s)).Nodup →
      new.map .ok = (s.includes.map (r.resolveInclude s)).reverse)
  read : ∃ met, (∀ l, r.Reads s [] s.includes l ↔ l = met) ∧ r.Submodules s met ∧
    ((∀ t ∈ s :: subs, (t.includes.map (r.resolveInclude t)).Nodup) →
      (subs = met ↔ ∀ t ∈ s :: subs, t.includes.length ≤ 1))

theorem Registry.lastFirst_of_link {r : Registry} {order : List Source} (h : r.link = .ok order)
    {s : Source} (hs : s ∈ r.sources) : ∃ subs, r.includedBy s = .ok subs ∧ r.LastFirst s subs := by
  have hresolves := Resolves.of_link h
  obtain ⟨subs, hsubs, hopens, hrun⟩ := hresolves.opens hs
  obtain ⟨met, hmet⟩ := hresolves.exists_reads r.size s [] s.includes hs (List.Subset.refl _)
    ⟨by simp, by simp⟩ (by simp)
  have hacyclic : ∀ t, ¬ TransGen r.Includes t t := by
    intro t ht
    obtain ⟨hsorted, hperm⟩ := sorted_of_link h
    have hrefers : TransGen r.Refers t t := TransGen.mono (fun _ _ => .inr) _ _ ht
    obtain ⟨u, -, hut⟩ := TransGen.tail'_iff.1 hrefers
    exact hsorted.not_transGen_self (hperm.mem_iff.2 hut.mem) hrefers
  exact ⟨subs, hrun _ (Nat.le_refl _), hsubs, hopens, hopens.direct, met,
    fun l => ⟨fun hl => hl.unique hmet, fun hl => hl ▸ hmet⟩, hmet.submodules,
    hopens.eq_read_iff hmet hacyclic⟩

/-- The modules of a schema name the submodules that they include, directly or not, in the order in which
they were gathered (`Registry.LastFirst`), and were declared from their own source and the bodies of the
submodules in this order. -/
theorem submodules_lastIncludeFirst {sources : List ParsedSource} {config : BuildConfig} {schema : Schema}
    (h : buildSchema sources config = .ok schema) :
    ∃ (r : Registry) (modules : List ModuleId) (w : Workspace) (mods : List Source),
      collectSources sources = .ok r ∧ Builds sources config modules w schema ∧
      mods.Perm (r.sources.filter (!·.isSubmodule)) ∧
      List.Forall₂ (fun s m => ∃ subs, r.includedBy s = .ok subs ∧ r.LastFirst s subs ∧
        m.facts.submodules = subs.map (fun sub => ⟨sub.name, sub.revision⟩) ∧
        ∃ k ∈ modules, (w.draft.module k).facts.identity = m.identity ∧
          r.InTurn m.identity k (s :: subs) w.draft) mods schema.modules := by
  obtain ⟨modules, w, hbuilds⟩ := exists_builds h
  obtain ⟨r, order, hr, hlink, hdeclared⟩ := hbuilds.declared
  have hheads := (gives_declareModules_headed r config order modules w hdeclared).2.2
  have hcomposes := gives_declareModules_composes r config order modules w hdeclared
  have hmem : ∀ s ∈ order.filter (!·.isSubmodule), s ∈ r.sources := fun s hs =>
    (Registry.sorted_of_link hlink).2.mem_iff.1 (List.mem_of_mem_filter hs)
  refine ⟨r, modules, w, order.filter (!·.isSubmodule), hr, hbuilds,
    (Registry.sorted_of_link hlink).2.filter _, ?_⟩
  have hdeclaredAs := hheads.mp (S := fun s k => r.Heads s (w.draft.module k).facts ∧
    ∃ subs own, r.Composes s subs own k w.draft) (fun _ _ hhead hcomp => ⟨hhead, hcomp⟩) hcomposes
  refine forall₂_join ((List.forall₂_and_left _ _).2 ⟨hmem, hdeclaredAs⟩).flip hbuilds.headings ?_
  rintro k hk s m ⟨hs, ⟨subs', own', hsubs', hown', hfacts⟩, subs, own, hcomp⟩ hheading
  obtain ⟨subs'', hsubs'', horder⟩ := Registry.lastFirst_of_link hlink hs
  have hgathered := hcomp.submodules
  rw [hsubs'', Except.ok.injEq] at hgathered hsubs'
  have hown := hcomp.identity
  rw [hown', Except.ok.injEq] at hown
  subst hgathered hsubs' hown
  -- the heading says which submodules there are, and under which identity they were declared
  have hidentity : (w.draft.module k).facts.identity = m.identity :=
    (ModuleFacts.identity_of_heading hheading).symm
  have hown : m.identity = own' := by
    have := congrArg ModuleFacts.identity hfacts
    exact hidentity.symm.trans this
  refine ⟨_, hsubs'', horder, ?_, k, hk, hidentity, hown ▸ hcomp.inTurn⟩
  have hsubmodules := congrArg ModuleFacts.submodules (hheading.trans hfacts)
  exact hsubmodules

/-! ## An example -/

/-- A module that includes two submodules, each with a leaf. -/
def twoIncludes : List ParsedSource := [
  includingAll .moduleWord "m" ["a", "b"] [
    { keyword := .word .namespaceWord, argument := some "urn:m" },
    { keyword := .word .prefixWord, argument := some "m" }],
  includingAll .submodule "a" [] [belongsToM, {
    keyword := .word .leaf, argument := some "x"
    children := [{ keyword := .word .type, argument := some "string" }] }],
  includingAll .submodule "b" [] [belongsToM, {
    keyword := .word .leaf, argument := some "y"
    children := [{ keyword := .word .type, argument := some "string" }] }]]

/-- The submodule that is included last comes first, and so does its leaf. -/
theorem submodules_lastIncludeFirst_twoIncludes :
    ∃ schema, buildSchema twoIncludes {} = .ok schema ∧
      (schema.modules.map fun m => m.facts.submodules.map SubmoduleRef.name) = [["b", "a"]] ∧
      (schema.modules.map fun m => m.children.map fun c => c.name.localName) = [["y", "x"]] ∧
      ∃ (r : Registry) (modules : List ModuleId) (w : Workspace) (mods : List Source),
        collectSources twoIncludes = .ok r ∧ Builds twoIncludes {} modules w schema ∧
        mods.Perm (r.sources.filter (!·.isSubmodule)) ∧
        List.Forall₂ (fun s m => ∃ subs, r.includedBy s = .ok subs ∧ r.LastFirst s subs ∧
          m.facts.submodules = subs.map (fun sub => ⟨sub.name, sub.revision⟩) ∧
          ∃ k ∈ modules, (w.draft.module k).facts.identity = m.identity ∧
            r.InTurn m.identity k (s :: subs) w.draft) mods schema.modules := by
  have hcheck : ((buildSchema twoIncludes {}).toOption.any fun schema =>
      decide ((schema.modules.map fun m => m.facts.submodules.map SubmoduleRef.name) = [["b", "a"]] ∧
        (schema.modules.map fun m => m.children.map fun c => c.name.localName) = [["y", "x"]])) =
      true := by decide +kernel
  simp only [Option.any_eq_true, toOption_eq_some, decide_eq_true_eq] at hcheck
  obtain ⟨schema, hschema, hsubmodules, hchildren⟩ := hcheck
  exact ⟨schema, hschema, hsubmodules, hchildren, submodules_lastIncludeFirst hschema⟩

end YangSchema
