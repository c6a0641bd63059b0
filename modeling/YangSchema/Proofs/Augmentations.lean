import YangSchema.Proofs.Building

/-!
# Where merged definitions are found

A build that succeeds has merged every module-level augmentation into its target.  What was merged is
found there in the schema, except in a shorthand case: its snapshot holds only the node that it was
put around, and what was merged into it is lost (`holds_iff`).
-/

namespace YangSchema

open Draft Edit

/-! ## In the draft -/

namespace Draft

variable {d₀ d d₁ : Draft} {i c o ν : NodeId} {a : AugmentId} {q : QName}

/-- The body of the augmentation `a` was merged into the node `ν`. -/
structure Holds (d : Draft) (a : AugmentId) (ν : NodeId) : Prop where
  found : ∀ q o, d.findChild (.augment a) q = some o → ∃ c, d.findChild (.node ν) q = some c ∧
    (d.wraps (.node ν) o = false ∧ d.MergedFrom o c ∨
      d.wraps (.node ν) o = true ∧ (d.node c).kind = .caseNode true ∧
        ∃ c', d.CaseOf c c' ∧ d.MergedFrom o c')
  /-- The node of a shorthand case was there before. -/
  apart : (d.node ν).kind = .caseNode true → ∃ c, d.CaseOf ν c ∧
    ∀ o ∈ d.childrenOf (.augment a), (d.node o).name ≠ (d.node c).name

theorem steps_ne_nil_of_findDataNode {p : SchemaPath} (h : d.findDataNode p = some ν) :
    p.steps ≠ [] := by
  obtain ⟨_, _, _, _, hdesc⟩ := findDataNode_eq_some.1 h
  exact (findDescendant_eq_some.1 hdesc).1

theorem holds_of_madeIn {m : ModuleId} {way : List QName} (hway : way ≠ [])
    (hm : d₀.HasSite (.module m))
    (h : Graft.MadeIn ⟨{ augmenting := true }, .module m, way, .augment a⟩ d₀ d) :
    ∃ ν, d.descend (.module m) way = some (.node ν) ∧ d.Holds a ν := by
  obtain ⟨D, D', hD, ⟨s, hs, ht⟩, hkeeps, hbody, -⟩ := h
  obtain ⟨ν, rfl⟩ := exists_node_of_descend hway hs
  have hD' := ht.changes.sound
  have hk : D.Keeps d := ht.changes.keeps.trans hkeeps
  have hunder : D.Under (.node ν) (.module m) := (Leads.of_descend hs).under hD.sound
  have hsite : D.HasSite (.node ν) := hasSite_of_under hunder (hD.keeps.hasSite hm)
  have hchild : ∀ {o}, o ∈ D.childrenOf (.augment a) → o.index < D.nodes.size := hD.sound.child_lt
  have hsame : d.childrenOf (.augment a) = D.childrenOf (.augment a) := hbody
  refine ⟨ν, hk.descend hD.sound hs, fun q o ho => ?_, fun hν => ?_⟩
  · have hoD : D.findChild (.augment a) q = some o := by
      rw [← ho]
      unfold findChild
      rw [hsame]
      exact List.find?_congr fun x hx => by rw [hk.name x (hchild hx)]
    have hmem := (findChild_eq_some hoD).1
    obtain ⟨c, hc, hplanted⟩ := ht.picks_planted hD.sound (picks_true.2 hoD)
    have hlt := Nat.lt_of_lt_of_le (hchild hmem) ht.changes.keeps.nodes_le
    refine ⟨c, hkeeps.findChild hD' (picks_true.1 hc), ?_⟩
    rw [hk.wraps hsite (hchild hmem)]
    rcases ht.planted_cases hD.sound hmem hplanted with ⟨hw, hcopy⟩ | ⟨hw, -, c', hcopy, hc'⟩
    · refine .inl ⟨?_, (ht.mergedFrom hcopy).keeps hkeeps hcopy.lt hlt⟩
      exact Bool.eq_false_iff.2 fun h => hw (wraps_eq_true.1 h)
    · have hw := wraps_eq_true.2 hw
      refine .inr ⟨hw, ?_, c', ?_, (ht.mergedFrom hcopy).keeps hkeeps hcopy.lt hlt⟩
      · rw [hkeeps.kind c hplanted.lt, (hplanted.wrapped hw).1]
      · exact (Regular.caseOf_planted ht hc' hplanted hw hcopy).keeps hD' hkeeps
  · rw [hk.kind ν hsite] at hν
    obtain ⟨c, hc⟩ := hD.regular.cases (.module m) hm ν hunder hν
    refine ⟨c, hc.keeps hD.sound hk, fun o ho hname => ?_⟩
    -- the merge would have clashed
    obtain ⟨rest, hrest⟩ := hc.first
    have hmem : c ∈ D.childrenOf (.node ν) := by rw [hrest]; exact List.mem_cons_self
    rw [hsame] at ho
    rw [hk.name o (hchild ho), hk.name c (hD.sound.child_lt hmem)] at hname
    have hfree := List.find?_eq_none.1 (ht.fresh o ho) c hmem
    exact hfree (by rw [← hname]; exact beq_self_eq_true _)

end Draft

/-! ## In the schema -/

/-- The node `n` was merged in as a copy of `c`. -/
def Node.IsMerged (n c : Node) : Prop := n.facts.augmenting = true ∧ n.origin = some c

/-- At the target of the augmentation `a` its node `c` is found, merged in: as it is, or in a
shorthand case if the target is a choice and `c` is no case. -/
def Schema.Holds (s : Schema) (a : Augmentation) (c : Node) : Prop :=
  ∃ t n, s.findNode a.facts.target = some t ∧ s.findNode (a.facts.target.child c.name) = some n ∧
    n.facts.augmenting = true ∧
    if t.kind.isChoice && !c.kind.isCase then
      n.kind = .caseNode true ∧ ∃ m, n.children = [m] ∧ m.IsMerged c
    else n.origin = some c

/-- What was merged in with a node is told by the node. -/
theorem Node.eq_of_merged {n c c₁ : Node} {wraps wraps₁ : Bool} (hc : c.kind ≠ .caseNode true)
    (hc₁ : c₁.kind ≠ .caseNode true)
    (h : if wraps then n.kind = .caseNode true ∧ ∃ m, n.children = [m] ∧ m.IsMerged c
      else n.origin = some c)
    (h₁ : if wraps₁ then n.kind = .caseNode true ∧ n.origin = some c₁.wrap ∧
        ∃ m, n.children = [m] ∧ m.IsMerged c₁
      else n.kind = c₁.kind ∧ n.origin = some c₁) : c₁ = c := by
  split at h
  · obtain ⟨hkind, m, hnm, -, horigin⟩ := h
    split at h₁
    · obtain ⟨-, -, m', hnm', -, horigin'⟩ := h₁
      obtain rfl : m = m' := (List.cons.inj (hnm.symm.trans hnm')).1
      exact Option.some.inj (horigin'.symm.trans horigin)
    · exact absurd (h₁.1.symm.trans hkind) hc₁
  · split at h₁
    · -- the origin of the shorthand case is a shorthand case
      have hwrap : c₁.wrap = c := Option.some.inj (h₁.2.1.symm.trans h)
      refine absurd ?_ hc
      rw [← hwrap, Node.wrap_eq_synthesize]
      rfl
    · exact Option.some.inj (h₁.2.symm.trans h)

/-- The first node of a name in a body is frozen as the first of its name. -/
theorem Draft.Follows.exists_first {d₀ d : Draft} (h : d₀.Follows d) {b : AugmentId}
    (hb : b.index < d₀.augments.size) {children : List Node}
    (hchildren : List.Forall₂ d.NodeSnapshot (d.augment b).children children) {c : Node}
    (hc : c ∈ children) : ∃ o c₁, d.findChild (.augment b) c.name = some o ∧
      children.find? (·.name == c.name) = some c₁ ∧ d.NodeSnapshot o c₁ := by
  have hrel := find?_snapshot hchildren (fun c hc n hn =>
    h.snapshot_name (x := .augment b) hb (h.sound.under_of_mem (.refl _) hc) hn) c.name
  cases hfind : children.find? (·.name == c.name) with
  | none => exact absurd (beq_self_eq_true c.name) (List.find?_eq_none.1 hfind c hc)
  | some c₁ =>
    rw [hfind] at hrel
    generalize ho : (d.augment b).children.find? (fun x => (d.node x).name == c.name) = o at hrel
    cases hrel with
    | some hsnap => exact ⟨_, c₁, ho, rfl, hsnap⟩

namespace Frozen

variable {d₀ d : Draft} {modules : List ModuleId} {schema : Schema} {ν o : NodeId} {a : AugmentId}
  {p : SchemaPath} {q : QName} {t c n : Node} (h : Frozen d₀ d modules schema)
include h

/-- What was merged into a node that is no shorthand case is found. -/
theorem findNode_child_of_holds (hp : schema.TellsApart p) (hν : d.findDataNode p = some ν)
    (hholds : d.Holds a ν) (ha : a.index < d₀.augments.size) (ht : schema.findNode p = some t)
    (hk : t.kind.isShorthandCase = false) (ho : d.findChild (.augment a) q = some o)
    (hc : d.NodeSnapshot o c) :
    ∃ n, schema.findNode (p.child q) = some n ∧ n.facts.augmenting = true ∧
      if t.kind.isChoice && !c.kind.isCase then
        n.kind = .caseNode true ∧ n.origin = some c.wrap ∧ ∃ m, n.children = [m] ∧ m.IsMerged c
      else n.kind = c.kind ∧ n.origin = some c := by
  obtain ⟨j, i, hj, hsite, hunder, hjt⟩ := h.exists_findDataNode hp ht
  obtain rfl : j = ν := Option.some.inj (hj.symm.trans hν)
  rw [Schema.findNode_child (steps_ne_nil_of_findDataNode hν), ht, Option.bind_some]
  obtain ⟨c', hc', hcase⟩ := hholds.found q o ho
  have hrel := h.follows.child?_rel hsite hunder hjt (by rw [← hjt.kind]; exact hk) q
  rw [hc'] at hrel
  cases hn : t.child? q with
  | none => rw [hn] at hrel; cases hrel
  | some n =>
    rw [hn] at hrel
    obtain hn := Option.rel_some_some.1 hrel
    have hwraps : (t.kind.isChoice && !c.kind.isCase) = d.wraps (.node j) o := by
      rw [hjt.kind, hc.kind]
      rfl
    have horigin : ∀ {c' n}, d.MergedFrom o c' → (d.node c').kind.isShorthandCase = false →
        d.NodeSnapshot c' n → n.facts.augmenting = true ∧ n.origin = some c := by
      intro c' n hm hk hn
      obtain ⟨hfacts, -, horigin⟩ := hn.of_not_shorthand hk
      refine ⟨by rw [hfacts, hm.augmenting], ?_⟩
      rw [hm.origin] at horigin
      cases hno : n.origin with
      | none => rw [hno] at horigin; cases horigin
      | some c₂ =>
        rw [hno] at horigin
        rw [NodeSnapshot.unique (Option.rel_some_some.1 horigin) hc]
    refine ⟨n, rfl, ?_⟩
    rw [hwraps]
    rcases hcase with ⟨hw, hm⟩ | ⟨hw, hkind, c₁, ⟨⟨rest, hrest⟩, -, hnot⟩, hm⟩
    · -- the body holds no shorthand case at its top
      have hoc : (d.node o).kind ≠ .caseNode true :=
        h.follows.regular.unwrapped (.augment a) ha _ (.refl _) rfl o (findChild_eq_some ho).1
      have hck : (d.node c').kind.isShorthandCase = false := by
        rw [Bool.eq_false_iff, ne_eq, NodeKind.isShorthandCase_iff, hm.kind]
        exact hoc
      obtain ⟨haug, hno⟩ := horigin hm hck hn
      rw [hw]
      exact ⟨haug, by rw [hn.kind, hm.kind, hc.kind], hno⟩
    · obtain ⟨c₂, rest', child, augmentations, hchildren, hchild, rfl⟩ :=
        hn.of_shorthand (NodeKind.isShorthandCase_iff.2 hkind)
      obtain rfl : c₂ = c₁ := (List.cons.inj (hchildren.symm.trans hrest)).1
      obtain ⟨haug, hno⟩ := horigin hm (NodeKind.isShorthandCase_of_isCase hnot) hchild
      rw [hw]
      refine ⟨haug, rfl, ?_, child, rfl, haug, hno⟩
      show child.origin.map Node.wrap = _
      rw [hno]
      rfl

/-- Nothing that was merged into a shorthand case is found. -/
theorem not_shorthand_of_findNode_child (hp : schema.TellsApart p) (hν : d.findDataNode p = some ν)
    (hholds : d.Holds a ν) (ht : schema.findNode p = some t)
    (ho : d.findChild (.augment a) q = some o) (hn : schema.findNode (p.child q) = some n) :
    t.kind.isShorthandCase = false := by
  obtain ⟨j, i, hj, hsite, hunder, hjt⟩ := h.exists_findDataNode hp ht
  obtain rfl : j = ν := Option.some.inj (hj.symm.trans hν)
  rw [Schema.findNode_child (steps_ne_nil_of_findDataNode hν), ht, Option.bind_some] at hn
  rw [hjt.kind, Bool.eq_false_iff]
  intro hk
  obtain ⟨c, hc, hapart⟩ := hholds.apart (NodeKind.isShorthandCase_iff.1 hk)
  obtain ⟨rest, hrest⟩ := hc.first
  obtain ⟨c', rest', child, _, hchildren, hchild, rfl⟩ := hjt.of_shorthand hk
  obtain rfl : c' = c := (List.cons.inj (hchildren.symm.trans hrest)).1
  have hname := h.follows.snapshot_name hsite
    (h.follows.sound.under_of_mem hunder (by rw [hrest]; exact List.mem_cons_self)) hchild
  obtain rfl := List.mem_singleton.1 (List.mem_of_find?_eq_some hn)
  have hq := List.find?_some hn
  obtain ⟨hmem, hoq⟩ := findChild_eq_some ho
  refine hapart o hmem ?_
  rw [hoq, ← hname]
  exact (beq_iff_eq.1 hq).symm

end Frozen

/-! ## Builds -/

/-- A merge that is carried out goes into a declared module. -/
theorem Run.exists_moduleOf? {d₀ : Draft} {S S' : Stage} {ms : List Move} {t : AugmentTask}
    (hS : S.From d₀) (h : Run S ms S') (ht : .merge t ∈ ms) :
    ∃ q i, t.target.first? = some q ∧ d₀.moduleOf? q.owner = some i := by
  induction h with
  | nil => cases ht
  | @cons S S₁ S' m ms hs _ ih =>
    rcases List.mem_cons.1 ht with rfl | ht
    · rcases hs.cases hS.toReady with ⟨_, _, _, _, hm, -⟩ | ⟨_, _, _, n, hm, -, -, -, -, -, hn, -⟩
      · cases hm
      · cases hm
        obtain ⟨q, i, hq, hi, -⟩ := findDataNode_eq_some.1 hn
        exact ⟨q, i, hq, hS.follows.moduleOf? q.owner ▸ hi⟩
    · exact ih (hs.from hS) ht

namespace Builds

variable {sources : List ParsedSource} {config : BuildConfig} {modules : List ModuleId} {w : Workspace}
  {schema : Schema}

/-- Without deviations the schema is frozen from a draft into which all augmentations are merged. -/
theorem exists_frozen (h : Builds sources config modules w schema) (hdev : w.tasks.deviations = []) :
    ∃ d, Frozen w.draft d modules schema ∧
      ∀ t ∈ w.tasks.augments, ∃ ν, d.findDataNode t.target = some ν ∧ d.Holds t.augment ν := by
  obtain ⟨ms, d, hrun, hfrozen⟩ := h.exists_frozen_run hdev
  have hstart := h.sane.from h.acyclic
  have hfollows := hfrozen.follows
  refine ⟨d, hfrozen, fun t ht => ?_⟩
  have hmove : Move.merge t ∈ ms :=
    hrun.perm_moves.symm.subset (List.mem_append_right _ (List.mem_map_of_mem ht))
  obtain ⟨q, i, hq, hi⟩ := hrun.exists_moduleOf? hstart hmove
  have hg : (⟨{ augmenting := true }, .module i, t.target.steps, .augment t.augment⟩ : Graft) ∈
      (Move.merge t).grafts w.draft := by
    show _ ∈ t.grafts w.draft
    unfold AugmentTask.grafts
    rw [hq, Option.bind_some, hi]
    exact List.mem_singleton_self _
  have hsteps := (h.sane.augments t ht).steps
  obtain ⟨ν, hν, hholds⟩ := holds_of_madeIn hsteps (hasSite_of_moduleOf? hi) (hrun.madeIn hstart hmove hg)
  refine ⟨ν, findDataNode_eq_some.2 ⟨q, i, hq, ?_, findDescendant_eq_some.2 ⟨hsteps, hν⟩⟩, hholds⟩
  rw [hfollows.moduleOf?]
  exact hi

/-- In a build without deviations a node of a module-level augmentation is found at its target, merged
in, exactly if it is the first of its name in the augmentation and the target is found and is no
shorthand case. -/
theorem holds_iff (h : Builds sources config modules w schema) (hdev : w.tasks.deviations = [])
    {m : Module} (hm : m ∈ schema.modules) {a : Augmentation} (ha : a ∈ m.augmentations)
    (hapart : schema.TellsApart a.facts.target) {c : Node} (hc : c ∈ a.children) :
    schema.Holds a c ↔
      (∃ t, schema.findNode a.facts.target = some t ∧ t.kind.isShorthandCase = false) ∧
        a.children.find? (·.name == c.name) = some c := by
  obtain ⟨d, hfrozen, hmerged⟩ := h.exists_frozen hdev
  have hfollows := hfrozen.follows
  -- the task of the augmentation
  obtain ⟨i, -, him⟩ := hfrozen.exists_snapshot hm
  obtain ⟨b, hb, hba⟩ := exists_of_forall₂_right him.augmentations ha
  rw [hfollows.tops] at hb
  obtain ⟨t, ht, rfl⟩ := h.sane.listed i b hb
  have hstands := h.sane.augments t ht
  obtain ⟨ν, hν, hholds⟩ := hmerged t ht
  obtain ⟨hfacts, hchildren⟩ := hba.facts_children
  have htarget : a.facts.target = t.target := by
    rw [hfacts, hfollows.keeps.target _ hstands.lt, hstands.target]
  rw [← htarget] at hν
  obtain ⟨o, c₁, ho, hfirst, hsnap⟩ := hfollows.exists_first hstands.lt hchildren hc
  rw [hfirst]
  have hplain : ∀ {c : Node}, c ∈ a.children → c.kind ≠ .caseNode true := by
    intro c hc
    obtain ⟨o, ho, hoc⟩ := exists_of_forall₂_right hchildren hc
    rw [hoc.kind]
    exact hfollows.regular.unwrapped (.augment t.augment) hstands.lt _ (.refl _) rfl o ho
  constructor
  · rintro ⟨t', n, ht', hn, -, hcase⟩
    have hk := hfrozen.not_shorthand_of_findNode_child hapart hν hholds ht' ho hn
    refine ⟨⟨t', ht', hk⟩, ?_⟩
    obtain ⟨n', hn', -, hcase'⟩ :=
      hfrozen.findNode_child_of_holds hapart hν hholds hstands.lt ht' hk ho hsnap
    obtain rfl : n = n' := Option.some.inj (hn.symm.trans hn')
    exact congrArg some (Node.eq_of_merged (hplain hc) (hplain (List.mem_of_find?_eq_some hfirst))
      hcase hcase')
  · rintro ⟨⟨t', ht', hk⟩, hc₁⟩
    obtain rfl := Option.some.inj hc₁
    obtain ⟨n, hn, haug, hcase⟩ :=
      hfrozen.findNode_child_of_holds hapart hν hholds hstands.lt ht' hk ho hsnap
    refine ⟨t', n, ht', hn, haug, ?_⟩
    split at hcase
    · next hif =>
      rw [if_pos hif]
      exact ⟨hcase.1, hcase.2.2⟩
    · next hif =>
      rw [if_neg hif]
      exact hcase.2

end Builds

/-! ## An example -/

/-- A module that augments the shorthand case of a choice. -/
def augmentedShorthand : ParsedSource where
  label := "m.yang"
  root := .ok {
    keyword := .word .moduleWord
    argument := some "m"
    children := [
      { keyword := .word .namespaceWord, argument := some "urn:m" },
      { keyword := .word .prefixWord, argument := some "m" },
      { keyword := .word .choice, argument := some "ch"
        children := [
          { keyword := .word .container, argument := some "x"
            children := [{ keyword := .word .leaf, argument := some "a" }] }] },
      { keyword := .word .augment, argument := some "/m:ch/m:x"
        children := [{ keyword := .word .leaf, argument := some "b" }] }] }

/-- The leaf that is merged into the case is not found. -/
theorem holds_iff_augmentedShorthand :
    ∃ modules w schema, Builds [augmentedShorthand] {} modules w schema ∧
      ∃ m ∈ schema.modules, ∃ a ∈ m.augmentations, ∃ c ∈ a.children, ¬ schema.Holds a c := by
  have hcheck : ((collectSources [augmentedShorthand]).toOption.any fun r =>
      r.link.toOption.any fun order => ((declareModules r {} order).run {}).toOption.any fun x =>
        ((effectiveModel x.2.tasks x.1).perform x.2.draft).1.toOption.any fun schema =>
          (only? schema.modules).any fun m => (only? m.augmentations).any fun a =>
            (only? a.children).any fun _ =>
              x.2.tasks.deviations.isEmpty && m.rpcs.isEmpty && m.notifications.isEmpty &&
                (schema.findNode a.facts.target).all fun t => t.kind.isShorthandCase) = true := by
    decide +kernel
  simp only [Option.any_eq_true, toOption_eq_some, only?_eq_some, Bool.and_eq_true,
    List.isEmpty_iff] at hcheck
  obtain ⟨r, hr, order, horder, ⟨modules, w⟩, hdeclared, schema, hmodel, m, hm, a, ha, c, hc,
    ⟨⟨hdev, hrpcs⟩, hnotifications⟩, hshorthand⟩ := hcheck
  have hbuilds : Builds [augmentedShorthand] {} modules w schema :=
    ⟨⟨r, order, hr, horder, hdeclared⟩, hmodel⟩
  refine ⟨modules, w, schema, hbuilds, m, by rw [hm]; exact List.mem_cons_self, a,
    by rw [ha]; exact List.mem_cons_self, c, by rw [hc]; exact List.mem_cons_self, fun hholds => ?_⟩
  have hapart : schema.TellsApart a.facts.target := by
    intro m' hm' q _ n hn
    rw [hm] at hm'
    rw [List.mem_singleton.1 hm', hrpcs, hnotifications] at hn
    cases hn
  obtain ⟨⟨t, ht, hk⟩, -⟩ := (hbuilds.holds_iff hdev (by rw [hm]; exact List.mem_cons_self)
    (by rw [ha]; exact List.mem_cons_self) hapart (by rw [hc]; exact List.mem_cons_self)).1 hholds
  rw [ht] at hshorthand
  exact absurd (hk.symm.trans hshorthand) (by decide)

end YangSchema
