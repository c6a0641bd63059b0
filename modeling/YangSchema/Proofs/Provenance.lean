import YangSchema.Proofs.Building
import YangSchema.Proofs.Inference.Provenance
import YangSchema.Proofs.Schema.Parts

/-!
# Where the nodes of a schema come from

Of every node in a finished schema, wherever it is referred to, the marks and the origin say the same:
a node is marked as a copy exactly if it has an origin, which is a node of the same sort and local
name, and what it is a copy of in the end is marked no more (`buildSchema_provenance`).  For the nodes
that were written this is so in the draft already; a shorthand case takes it over from its child.
-/

namespace YangSchema

open Draft Relation

/-! ## Exact nodes -/

/-- The node is marked as a copy exactly if it has an origin, which it resembles. -/
structure Node.Exact (n : Node) : Prop where
  origin : n.origin.isSome = n.facts.isCopy
  recalls : ∀ o, n.origin = some o → n.facts.Recalls o.facts

/-- All nodes that are reached are exact. -/
def Part.Faithful (p : Part) : Prop := p.All Node.Exact

namespace Part.Faithful

variable {n o : Node}

theorem exact (h : Faithful (.node n)) : n.Exact := All.self h

theorem origin (h : Faithful (.node n)) (ho : n.origin = some o) : Faithful (.node o) := All.origin h ho

end Part.Faithful

/-- A shorthand case is exact if its child is. -/
theorem Node.Exact.synthesize {c : Node} (h : c.Exact) (path : SchemaPath)
    (augmentations : List Augmentation) (unknown : List UnknownStatement) :
    (c.synthesize path augmentations unknown).Exact := by
  refine ⟨(Option.isSome_map ..).trans h.origin, fun o' ho' => ?_⟩
  obtain ⟨o, ho, rfl⟩ := Option.map_eq_some_iff.1 ho'
  have hrecalls := h.recalls o ho
  rw [Node.wrap_eq_synthesize]
  exact ⟨rfl, hrecalls.localName, hrecalls.byUses, hrecalls.augmenting⟩

theorem Node.Exact.wrap {c : Node} (h : c.Exact) : c.wrap.Exact := by
  rw [Node.wrap_eq_synthesize]
  exact h.synthesize _ _ _

/-! ## Snapshots of a traced draft -/

namespace Draft

variable {d : Draft}

/-- A snapshot of a traced node is exact. -/
theorem TracedAt.exact {i : NodeId} {v : Node} (h : d.TracedAt i) (hv : v.facts = (d.node i).facts)
    (ho : Option.Rel d.NodeSnapshot (d.node i).origin v.origin) : v.Exact := by
  constructor
  · rw [hv, ← h.origin]
    generalize (d.node i).origin = x at ho
    generalize v.origin = y at ho
    cases ho <;> rfl
  · intro o hvo
    rw [hvo] at ho
    cases hio : (d.node i).origin with
    | none => rw [hio] at ho; cases ho
    | some j =>
      rw [hio] at ho
      cases ho with
      | some hj =>
        have hwritten : (d.node j).kind.isShorthandCase = false := by
          rw [Bool.eq_false_iff]
          exact fun hcase => h.written j hio (NodeKind.isShorthandCase_iff.1 hcase)
        rw [hv, (hj.of_not_shorthand hwritten).1]
        exact h.recalls j hio

/-- A snapshot of a traced draft is exact; that of a shorthand case is so by its child. -/
theorem Traced.snapshotsHave (hd : d.Traced) : d.SnapshotsHave Node.Exact := by
  intro i v h hchildren
  by_cases hk : (d.node i).kind.isShorthandCase = true
  · obtain ⟨c, rest, child, augmentations, -, -, rfl⟩ := h.of_shorthand hk
    exact (hchildren child List.mem_cons_self).synthesize _ _ _
  · have hkind : (d.node i).kind ≠ .caseNode true := fun hcase =>
      hk (NodeKind.isShorthandCase_iff.2 hcase)
    obtain ⟨hfacts, -, horigin⟩ := h.of_not_shorthand (Bool.eq_false_iff.2 hk)
    exact (hd i hkind).exact hfacts horigin

end Draft

/-! ## Finished schemas -/

/-- Following the origins ends at the root origin, which has none. -/
theorem Node.reaches_rootOrigin (n : Node) :
    ReflTransGen (fun x o => x.origin = some o) n n.rootOrigin ∧ n.rootOrigin.origin = none := by
  match n with
  | ⟨_, _, _, _, _, _, none⟩ =>
    unfold rootOrigin
    rw [origins]
    exact ⟨.refl, rfl⟩
  | ⟨facts, config, children, groupings, uses, augmentations, some o⟩ =>
    obtain ⟨hreach, hnone⟩ := reaches_rootOrigin o
    have hroot : rootOrigin ⟨facts, config, children, groupings, uses, augmentations, some o⟩ =
        o.rootOrigin := by
      unfold rootOrigin
      rw [origins, List.getLast?_cons]
      rfl
    rw [hroot]
    exact ⟨.head rfl hreach, hnone⟩

theorem Part.Faithful.of_origins {n r : Node} (h : Faithful (.node n))
    (hr : ReflTransGen (fun x o => x.origin = some o) n r) : Faithful (.node r) := by
  induction hr with
  | refl => exact h
  | tail _ ho ih => exact ih.origin ho

theorem Builds.faithful {sources : List ParsedSource} {config : BuildConfig} {modules : List ModuleId}
    {w : Workspace} {schema : Schema} (h : Builds sources config modules w schema) {p : Part}
    (hp : schema.Has p) : p.Faithful := by
  obtain ⟨d, d', hcourse⟩ := h.exists_course
  have htraced : d'.Traced :=
    (h.sane.pristine.traced.strokes h.sane.sound hcourse.strokes).pruned hcourse.pruned
  obtain ⟨m, hm, q, hq, hqp⟩ := hp
  obtain ⟨i, -, hi⟩ := exists_of_forall₂_right hcourse.snapshots hm
  exact fun n hn => hi.all htraced.snapshotsHave (fun _ hn => hn.wrap) hq n (hqp.trans hn)

/-- In the schema of a build a node has an origin exactly if it is marked as brought in by a uses or
merged in by an augmentation.  The origin has the same keyword and local name, and its marks are marks
of the copy, too.  From origin to origin one comes to a node without origin and without marks. -/
theorem buildSchema_provenance {sources : List ParsedSource} {config : BuildConfig} {schema : Schema}
    (h : buildSchema sources config = .ok schema) {n : Node} (hn : schema.Has (.node n)) :
    (n.origin.isSome = true ↔ n.facts.byUses = true ∨ n.facts.augmenting = true) ∧
      (∀ o, n.origin = some o → o.kind.keyword = n.kind.keyword ∧
        o.name.localName = n.name.localName ∧ (o.facts.byUses = true → n.facts.byUses = true) ∧
        (o.facts.augmenting = true → n.facts.augmenting = true)) ∧
      ReflTransGen (fun x o => x.origin = some o) n n.rootOrigin ∧ n.rootOrigin.origin = none ∧
      n.rootOrigin.facts.byUses = false ∧ n.rootOrigin.facts.augmenting = false := by
  obtain ⟨modules, w, hbuilds⟩ := exists_builds h
  have hfaithful := hbuilds.faithful hn
  obtain ⟨hreach, hnone⟩ := n.reaches_rootOrigin
  have hroot := (hfaithful.of_origins hreach).exact.origin
  rw [hnone] at hroot
  obtain ⟨hbyUses, haugmenting⟩ := Bool.or_eq_false_iff.1 hroot.symm
  refine ⟨?_, fun o ho => ?_, hreach, hnone, hbyUses, haugmenting⟩
  · rw [hfaithful.exact.origin, NodeFacts.isCopy_iff]
  · have hrecalls := hfaithful.exact.recalls o ho
    exact ⟨hrecalls.keyword, hrecalls.localName, hrecalls.byUses, hrecalls.augmenting⟩

/-! ## An example -/

/-- A module with a uses in a choice. -/
def copyingSource : ParsedSource where
  label := "m.yang"
  root := .ok {
    keyword := .word .moduleWord
    argument := some "m"
    children := [
      { keyword := .word .namespaceWord, argument := some "urn:m" },
      { keyword := .word .prefixWord, argument := some "m" },
      { keyword := .word .grouping, argument := some "g"
        children := [{ keyword := .word .leaf, argument := some "a" }] },
      { keyword := .word .choice, argument := some "ch"
        children := [{ keyword := .word .uses, argument := some "g" }] }] }

/-- The case around the copied leaf counts as a copy of the case around the leaf of the grouping. -/
theorem buildSchema_provenance_copyingSource :
    ∃ schema n, buildSchema [copyingSource] {} = .ok schema ∧ schema.Has (.node n) ∧
      n.kind = .caseNode true ∧ n.facts.byUses = true ∧ n.origin.isSome = true ∧
      n.rootOrigin.facts.byUses = false := by
  have hcheck : ((buildSchema [copyingSource] {}).toOption.any fun schema =>
      schema.modules.any fun m => m.topLevel.any fun c => c.children.any fun n =>
        decide (n.kind = .caseNode true ∧ n.facts.byUses = true)) = true := by decide +kernel
  simp only [Option.any_eq_true, toOption_eq_some, List.any_eq_true, decide_eq_true_eq] at hcheck
  obtain ⟨schema, hschema, m, hm, c, hc, n, hn, hkind, hbyUses⟩ := hcheck
  have hlisted : Part.node c ∈ m.parts := by
    simp only [Module.parts, List.mem_append, List.mem_map]
    exact .inl (.inl (.inl ⟨c, hc, rfl⟩))
  have hheld : Part.node n ∈ (Part.node c).parts := by
    simp only [Part.parts, List.mem_append, List.mem_map]
    exact .inl (.inl (.inl (.inl ⟨n, hn, rfl⟩)))
  have hhas : schema.Has (.node n) := ⟨m, hm, .node c, hlisted, .single hheld⟩
  obtain ⟨hiff, -, -, -, hroot, -⟩ := buildSchema_provenance hschema hhas
  exact ⟨schema, n, hschema, hhas, hkind, hbyUses, hiff.2 (.inl hbyUses), hroot⟩

end YangSchema
