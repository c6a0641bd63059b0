import YangSchema.Proofs.DeviationTargets
import YangSchema.Proofs.Namespaces
import YangSchema.Proofs.Schema.Places
import YangSchema.Proofs.Siblings

/-!
# Finding nodes by their paths

In the schema of a build the path of a node leads to the place of the node exactly if the way there is
straight: each node on it has the name that its path ends with, and is the first of its siblings with
this name (`nodes_found_by_path`).  A node has another name than its path ends with only if it is a
shorthand case and a deviation took out the node that the case was put around: the snapshot of the case
is named after the first node that is left in it.
-/

namespace YangSchema

open Draft Edit Node

/-- The deviation removes the node that the case was put around, which has the name that the path of
the case ends with. -/
def DeviationTask.Unwraps (u : DeviationTask) (case : Node) : Prop :=
  u.Removes ∧ ∃ q, case.path.last? = some q ∧ u.deviation.target.steps = case.path.steps ++ [q]

namespace Builds.Course

variable {sources : List ParsedSource} {config : BuildConfig} {modules : List ModuleId} {w : Workspace}
  {d d' : Draft} {schema : Schema} {m m' : Module} {k : ModuleId} {y : Site} {i j c : NodeId}
  {n t child : Node} {is : List Nat}
  (h : Course sources config modules w d d' schema)
include h

/-! ## Modules -/

theorem module_unique (hm : m ∈ schema.modules) (hm' : m' ∈ schema.modules)
    (hidentity : m.identity = m'.identity) : m = m' := by
  obtain ⟨k, hk, hkm⟩ := h.exists_module hm
  obtain ⟨k', hk', hkm'⟩ := h.exists_module hm'
  rw [h.identity hkm, h.identity hkm'] at hidentity
  obtain rfl := h.sane.identities k k' hk hk' hidentity
  exact ModuleSnapshot.unique hkm hkm'

/-! ## Paths and names -/

/-- The path of a snapshot ends with the name of the node that it was taken of. -/
theorem path_eq (hk : w.draft.HasSite (.module k)) (hy : d'.Under y (.module k))
    (hj : j ∈ d'.childrenOf y) (ht : d'.NodeSnapshot j t) : t.path = (d'.pathOf y).child (d.node j).name := by
  have hsame : (d'.node j).path = (d.node j).path := h.pruned.pathOf (.node j)
  rw [ht.path, hsame, h.pruned.pathOf]
  exact h.follows.regular.paths _ hk y (h.pruned.under hy) j ((h.pruned.children y).subset hj)

theorem namedByPath_iff (hk : w.draft.HasSite (.module k)) (hy : d'.Under y (.module k))
    (hj : j ∈ d'.childrenOf y) (ht : d'.NodeSnapshot j t) : t.NamedByPath ↔ t.name = (d.node j).name := by
  rw [NamedByPath, h.path_eq hk hy hj ht, SchemaPath.last?_child, Option.some.injEq, eq_comm]

theorem name_of_not_shorthand (ht : d'.NodeSnapshot j t)
    (hkind : (d.node j).kind.isShorthandCase = false) : t.name = (d.node j).name := by
  rw [← (h.node_eq j).2.1] at hkind
  exact (congrArg NodeFacts.name (ht.of_not_shorthand hkind).1).trans (h.node_eq j).1

/-- What is in a module are snapshots of what is below it. -/
theorem exists_node (hkm : d'.ModuleSnapshot k m) (ht : t ∈ preorderAll m.topLevel) :
    ∃ y j, d'.Under y (.module k) ∧ j ∈ d'.childrenOf y ∧ d'.NodeSnapshot j t := by
  have hsound := h.pruned.sound
  rw [preorderAll_eq_flatMap] at ht
  obtain ⟨n, hn, ht⟩ := List.mem_flatMap.1 ht
  obtain ⟨c, hc, hcn⟩ := hkm.exists_top hn
  obtain ⟨p, j, hp, hj⟩ := hcn.exists_leads ht
  have hunder : d'.Under (.node j) (.module k) :=
    (hp.under hsound).trans (hsound.under_of_mem (x := .module k) (.refl _) hc)
  cases hunder with
  | @up _ y _ hparent hy => exact ⟨y, j, hy, (hsound.parent_iff y j).2 hparent, hj⟩

theorem pathsBelow (hk : w.draft.HasSite (.module k)) (hkm : d'.ModuleSnapshot k m) :
    PathsBelow .root m.topLevel where
  top n hn := by
    obtain ⟨c, hc, hcn⟩ := hkm.exists_top hn
    exact ⟨_, h.path_eq hk (.refl _) hc hcn⟩
  below n hn c hc := by
    obtain ⟨y, i, hy, hi, hin⟩ := h.exists_node hkm hn
    obtain ⟨j, hj, hjc⟩ := hin.exists_child hc
    refine ⟨(d.node j).name, ?_⟩
    rw [hin.path]
    exact h.path_eq hk (h.pruned.sound.under_of_mem hy hi) hj hjc

/-! ## Shorthand cases -/

theorem exists_cleared : ∃ removed, Cleared removed d d' ∧
    ∀ p ∈ removed, ∃ u ∈ w.tasks.deviations, u.Removes ∧ u.deviation.target = p := by
  obtain ⟨removed, happlied⟩ := (ends_applyDeviations_inTurn w.tasks d).of_ok h.deviate
  obtain ⟨hcleared, hwho⟩ := happlied.cleared h.follows.sound
  refine ⟨removed, hcleared, fun p hp => ?_⟩
  obtain ⟨u, hu, hremoves⟩ := hwho p hp
  exact ⟨u, List.mem_mergeSort.1 hu, hremoves⟩

/-- What a path addresses has the steps of the path. -/
theorem steps_of_addresses {p : SchemaPath} (hp : d.Addresses p c) : (d.node c).path.steps = p.steps := by
  obtain ⟨q, l, -, hl, hleads⟩ := hp
  have hsite : w.draft.HasSite (.module l) := hasSite_of_moduleOf? (h.follows.moduleOf? q.owner ▸ hl)
  have hpath : d.pathOf (.node c) = SchemaPath.root.down p.steps :=
    h.follows.pathOf_eq hsite (.refl _) hleads
  show (d.pathOf (.node c)).steps = _
  rw [hpath]
  rfl

/-- As long as the node that it was put around is there, a shorthand case has the name of this node. -/
theorem name_of_caseOf {removed : List SchemaPath} (hcleared : Cleared removed d d')
    (hshort : (d.node j).kind = .caseNode true) (hcase : d.CaseOf j c) (hc : c ∈ d'.childrenOf (.node j))
    (ht : d'.NodeSnapshot j t) : t.name = (d.node j).name := by
  obtain ⟨⟨rest, hrest⟩, hname, hnot⟩ := hcase
  obtain ⟨f, hf⟩ := hcleared.filtered (.node j)
  have hkeep : f c = true := by
    rw [hf] at hc
    exact (List.mem_filter.1 hc).2
  -- it is the first one that is left
  rw [hrest, List.filter_cons, if_pos hkeep] at hf
  obtain ⟨c', _, child, _, hchildren, hchild, rfl⟩ :=
    ht.of_shorthand (by rw [(h.node_eq j).2.1, hshort]; rfl)
  obtain rfl : c' = c := (List.cons.inj (hchildren.symm.trans hf)).1
  have hchildname : child.name = (d.node c').name :=
    h.name_of_not_shorthand hchild (NodeKind.isShorthandCase_of_isCase hnot)
  exact hchildname.trans hname

/-- A node has another name than its path ends with only if it is a shorthand case, and a deviation
removed what the case was put around. -/
theorem unwrapped_of_not_namedByPath (hk : w.draft.HasSite (.module k)) (hkm : d'.ModuleSnapshot k m)
    (ht : t ∈ preorderAll m.topLevel) (hname : ¬ t.NamedByPath) :
    t.kind = .caseNode true ∧ ∃ u ∈ w.tasks.deviations, u.Unwraps t := by
  obtain ⟨y, j, hy, hj, hjt⟩ := h.exists_node hkm ht
  have hpath := h.path_eq hk hy hj hjt
  rw [h.namedByPath_iff hk hy hj hjt] at hname
  have hshort : (d.node j).kind = .caseNode true := by
    rw [← NodeKind.isShorthandCase_iff, ← Bool.not_eq_false]
    exact fun hkind => hname (h.name_of_not_shorthand hjt hkind)
  refine ⟨by rw [hjt.kind, (h.node_eq j).2.1, hshort], ?_⟩
  have hunder : d.Under (.node j) (.module k) := h.pruned.under (h.pruned.sound.under_of_mem hy hj)
  obtain ⟨c, hcase⟩ := h.follows.regular.cases _ hk j hunder hshort
  have hmem : c ∈ d.childrenOf (.node j) := by
    obtain ⟨rest, hrest⟩ := hcase.first
    rw [hrest]
    exact List.mem_cons_self
  obtain ⟨removed, hcleared, hwho⟩ := h.exists_cleared
  have hgone : c ∉ d'.childrenOf (.node j) :=
    fun hc => hname (h.name_of_caseOf hcleared hshort hcase hc hjt)
  rcases hcleared.missing (.node j) c hmem hgone with ⟨p, hp, haddressed⟩ | hemptied
  · obtain ⟨u, hu, hremoves, rfl⟩ := hwho p hp
    refine ⟨u, hu, hremoves, (d.node j).name, by rw [hpath, SchemaPath.last?_child], ?_⟩
    have hcpath := h.follows.regular.paths _ hk (.node j) hunder c hmem
    rw [← h.steps_of_addresses haddressed, hcpath, hcase.name, SchemaPath.child_steps, ← h.pruned.pathOf,
      hjt.path]
    rfl
  · have hnot := hcase.not_case
    rw [hemptied.kind] at hnot
    cases hnot

/-- A node at the top is named by its path. -/
theorem namedByPath_of_top (hk : w.draft.HasSite (.module k)) (hkm : d'.ModuleSnapshot k m)
    (hn : n ∈ m.topLevel) : n.NamedByPath := by
  obtain ⟨c, hc, hcn⟩ := hkm.exists_top hn
  have hmem := (h.pruned.children (.module k)).subset hc
  refine (h.namedByPath_iff hk (.refl _) hc hcn).2 (h.name_of_not_shorthand hcn ?_)
  rw [← Bool.not_eq_true, NodeKind.isShorthandCase_iff]
  exact h.follows.regular.unwrapped _ hk _ (.refl _) rfl c hmem

/-! ## Siblings -/

theorem distinct (hdistinct : w.draft.Distinct) : d.Distinct := by
  obtain ⟨ms, hrun⟩ := h.exists_moves
  exact (hrun.discerning (h.sane.from h.acyclic) (h.sane.discerning hdistinct)).distinct

theorem map_name_eq (hk : w.draft.HasSite (.module k)) (hy : d'.Under y (.module k)) {l : List NodeId}
    {ns : List Node} (hl : l ⊆ d'.childrenOf y) (hns : List.Forall₂ d'.NodeSnapshot l ns)
    (hnames : ∀ n ∈ ns, n.NamedByPath) : ns.map Node.name = l.map fun c => (d.node c).name := by
  induction hns with
  | nil => rfl
  | @cons c n l ns hcn _ ih =>
    obtain ⟨hc, hl⟩ := List.cons_subset.1 hl
    obtain ⟨hn, hnames⟩ := List.forall_mem_cons.1 hnames
    rw [List.map_cons, List.map_cons, ih hl hnames, (h.namedByPath_iff hk hy hc hcn).1 hn]

/-- Snapshots of siblings that are named by their paths have different names. -/
theorem nodup_names (hk : w.draft.HasSite (.module k)) (hdistinct : d.Distinct)
    (hy : d'.Under y (.module k)) {ns : List Node} (hns : List.Forall₂ d'.NodeSnapshot (d'.childrenOf y) ns)
    (hnames : ∀ n ∈ ns, n.NamedByPath) : (ns.map Node.name).Nodup := by
  rw [h.map_name_eq hk hy (List.Subset.refl _) hns hnames]
  exact ((h.pruned.children y).map _).nodup (hdistinct y)

theorem distinctBelow (hk : w.draft.HasSite (.module k)) (hkm : d'.ModuleSnapshot k m)
    (hdistinct : w.draft.Distinct) (hnames : ∀ n ∈ preorderAll m.topLevel, n.NamedByPath) :
    DistinctBelow m.topLevel where
  top := by
    obtain ⟨nodes, groupings, augmentations, uses, hnodes, -, -, -, rfl⟩ := hkm
    have hperm := topLevel_perm (d'.module k) nodes groupings augmentations uses
    rw [(hperm.map _).nodup_iff]
    refine h.nodup_names hk (h.distinct hdistinct) (.refl _) hnodes fun n hn => ?_
    exact hnames n (mem_preorderAll_of_mem (hperm.mem_iff.2 hn))
  below n hn := by
    obtain ⟨y, j, hy, hj, hjn⟩ := h.exists_node hkm hn
    cases hkind : (d'.node j).kind.isShorthandCase with
    | false =>
      refine h.nodup_names hk (h.distinct hdistinct) (h.pruned.sound.under_of_mem hy hj)
        (hjn.of_not_shorthand hkind).2.1 fun c hc => hnames c ?_
      rw [preorderAll_eq_flatMap] at hn ⊢
      obtain ⟨top, htop, hn⟩ := List.mem_flatMap.1 hn
      exact List.mem_flatMap.2 ⟨top, htop, mem_preorder_of_child hn hc⟩
    | true =>
      obtain ⟨_, _, child, _, -, -, rfl⟩ := hjn.of_shorthand hkind
      exact List.nodup_singleton _

/-! ## Looking for paths -/

/-- The first step of a path says in which module the node is. -/
theorem findNode_path (hm : m ∈ schema.modules) (hk : w.draft.HasSite (.module k))
    (hkm : d'.ModuleSnapshot k m) (ht : at? m.topLevel is = some t) :
    schema.findNode t.path = m.findNode t.path := by
  obtain ⟨n, hn, hfirst⟩ := (h.pathsBelow hk hkm).exists_first ht
  have hmodule : schema.findModuleByIdentity n.name.owner = some m := by
    rw [h.owner_of_top hk hkm hn]
    exact Schema.findModuleByIdentity_eq_some (fun m hm m' hm' => h.module_unique hm hm') hm
  rw [h.namedByPath_of_top hk hkm hn] at hfirst
  unfold Schema.findNode
  rw [hfirst]
  show (schema.findModuleByIdentity n.name.owner).bind _ = _
  rw [hmodule]
  rfl

end Builds.Course

/-- In the schema of a build the path of a node of a module is looked up by going down the module by the
names of the path.  This leads to the place of the node exactly if on the way there each node has the name
that its path ends with, and no sibling before it has this name.  Only a shorthand case has another name
than its path ends with, and then a deviation removed the node that it was put around.  If there is no such
deviation, and no two siblings were declared with one name, all nodes are found by their paths. -/
theorem nodes_found_by_path {sources : List ParsedSource} {config : BuildConfig} {schema : Schema}
    (h : buildSchema sources config = .ok schema) :
    ∃ modules w d d', Builds.Course sources config modules w d d' schema ∧
      ∀ m ∈ schema.modules, ∀ is t, at? m.topLevel is = some t →
        schema.findNode t.path = (place? m.topLevel t.path.steps).bind (at? m.topLevel) ∧
        (place? m.topLevel t.path.steps = some is ↔ Straight m.topLevel is) ∧
        (¬ t.NamedByPath → t.kind = .caseNode true ∧ ∃ u ∈ w.tasks.deviations, u.Unwraps t) ∧
        (w.draft.Distinct → (∀ u ∈ w.tasks.deviations, ∀ n ∈ preorderAll m.topLevel,
            n.kind = .caseNode true → ¬ u.Unwraps n) →
          place? m.topLevel t.path.steps = some is ∧ schema.findNode t.path = some t) := by
  obtain ⟨modules, w, d, d', hcourse⟩ := exists_course h
  refine ⟨modules, w, d, d', hcourse, fun m hm is t ht => ?_⟩
  obtain ⟨k, hk, hkm⟩ := hcourse.exists_module hm
  have hfind : schema.findNode t.path = (place? m.topLevel t.path.steps).bind (at? m.topLevel) := by
    rw [hcourse.findNode_path hm hk hkm ht, Module.findNode_eq]
  obtain ⟨l, hpath, hplace⟩ := (hcourse.pathsBelow hk hkm).exists_steps ht
  have hsteps : t.path.steps = l := congrArg SchemaPath.steps hpath
  rw [← hsteps] at hplace
  have hunwraps : ∀ n ∈ preorderAll m.topLevel, ¬ n.NamedByPath →
      n.kind = .caseNode true ∧ ∃ u ∈ w.tasks.deviations, u.Unwraps n :=
    fun n hn => hcourse.unwrapped_of_not_namedByPath hk hkm hn
  refine ⟨hfind, hplace, hunwraps t (mem_of_at? ht), fun hdistinct hnone => ?_⟩
  have hnames : ∀ n ∈ preorderAll m.topLevel, n.NamedByPath := by
    intro n hn
    by_contra hname
    obtain ⟨hkind, u, hu, hu'⟩ := hunwraps n hn hname
    exact hnone u hu n hn hkind hu'
  have hplaced := hplace.2 ((hcourse.distinctBelow hk hkm hdistinct hnames).straight hnames ht)
  refine ⟨hplaced, ?_⟩
  rw [hfind, hplaced]
  exact ht

/-- A module with a leaf in a choice, and an augmentation that merges another leaf beside it. -/
def joinedSource : ParsedSource where
  label := "m.yang"
  root := .ok {
    keyword := .word .moduleWord
    argument := some "m"
    children := [
      { keyword := .word .namespaceWord, argument := some "urn:m" },
      { keyword := .word .prefixWord, argument := some "m" },
      { keyword := .word .choice, argument := some "ch"
        children := [{ keyword := .word .leaf, argument := some "x" }] },
      { keyword := .word .augment, argument := some "/m:ch/m:x"
        children := [{ keyword := .word .leaf, argument := some "b" }] }] }

/-- A module that takes the first leaf out of its case. -/
def unwrappingSource : ParsedSource where
  label := "n.yang"
  root := .ok {
    keyword := .word .moduleWord
    argument := some "n"
    children := [
      { keyword := .word .namespaceWord, argument := some "urn:n" },
      { keyword := .word .prefixWord, argument := some "n" },
      { keyword := .word .importWord, argument := some "m"
        children := [{ keyword := .word .prefixWord, argument := some "m" }] },
      { keyword := .word .deviation, argument := some "/m:ch/m:x/m:x"
        children := [{ keyword := .word .deviate, argument := some "not-supported" }] }] }

/-- The case still has the path that ends with `x`, but is named after the other leaf, and is not found. -/
theorem nodes_found_by_path_unwrappingSource : ∃ schema m is t,
    buildSchema [joinedSource, unwrappingSource] {} = .ok schema ∧ m ∈ schema.modules ∧
      at? m.topLevel is = some t ∧ t.kind = .caseNode true ∧ ¬ Straight m.topLevel is ∧
      schema.findNode t.path = none := by
  have hcheck : ((buildSchema [joinedSource, unwrappingSource] {}).toOption.any fun schema =>
      schema.modules.any fun m => (at? m.topLevel [0, 0]).any fun t =>
        decide (t.path.last? ≠ some t.name ∧ place? m.topLevel t.path.steps = none)) = true := by
    decide +kernel
  simp only [Option.any_eq_true, toOption_eq_some, List.any_eq_true, decide_eq_true_eq] at hcheck
  obtain ⟨schema, hschema, m, hm, t, ht, hname, hplace⟩ := hcheck
  obtain ⟨modules, w, d, d', hcourse, hnodes⟩ := nodes_found_by_path hschema
  obtain ⟨hfind, hiff, hunwraps, -⟩ := hnodes m hm _ t ht
  refine ⟨schema, m, _, t, hschema, hm, ht, (hunwraps hname).1, fun hstraight => ?_, ?_⟩
  · rw [hiff.2 hstraight] at hplace
    cases hplace
  · rw [hfind, hplace]
    rfl

end YangSchema
