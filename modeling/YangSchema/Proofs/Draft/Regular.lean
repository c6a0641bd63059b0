import YangSchema.Proofs.Draft.Transplanting

/-!
# Regular drafts

What is below the sites of a declared draft is regular, and stays so when bodies are copied
(`Regular.takes`): nodes have the paths of their places, a shorthand case holds the node that it was
put around, and shorthand cases stand under choices only.
-/

namespace YangSchema

theorem NodeKind.isShorthandCase_iff {k : NodeKind} : k.isShorthandCase = true ↔ k = .caseNode true := by
  cases k <;> simp [isShorthandCase]

theorem NodeKind.isShorthandCase_of_isCase {k : NodeKind} (h : k.isCase = false) :
    k.isShorthandCase = false := by
  cases k <;> simp_all [isShorthandCase, isCase]

theorem CopyStyle.kind_eq_caseNode {style : CopyStyle} {k : NodeKind} {b : Bool} :
    style.kind k = .caseNode b ↔ k = .caseNode b := by
  unfold kind
  split
  · cases k <;> simp [NodeKind.bindTo]
  · rfl

namespace Draft

variable {style : CopyStyle} {d₀ d d₁ : Draft} {s t x : Site} {c i j o : NodeId}

/-! ## New nodes -/

/-- How the new node of a graft hangs where it hangs. -/
inductive FreshAt (style : CopyStyle) (s t : Site) (d d₁ : Draft) : Site → NodeId → Prop
  /-- It stands for a node of the body. -/
  | planted {o i : NodeId} (hs : d.HasSite s) (ho : o ∈ d.childrenOf t)
    (hi : Planted style s d d₁ o i) : FreshAt style s t d d₁ s i
  /-- It is a copy below a copy. -/
  | copied {o' j o i : NodeId} (hj : IsCopy t d d₁ o' j) (ho : o ∈ d.childrenOf (.node o'))
    (hi : IsCopy t d d₁ o i) : FreshAt style s t d d₁ (.node j) i
  /-- It is a copy in a shorthand case. -/
  | wrapped {o j i : NodeId} (ho : o ∈ d.childrenOf t) (hj : Planted style s d d₁ o j)
    (hw : d.wraps s o = true) (hc : d₁.childrenOf (.node j) = [i]) (hi : IsCopy t d d₁ o i) :
    FreshAt style s t d d₁ (.node j) i

section Takes

variable (hd : d.Sound) (h : Takes style s t d d₁)
include hd h

theorem Takes.copied_child (hj : IsCopy t d d₁ o j) (hi : i ∈ d₁.childrenOf (.node j)) :
    FreshAt style s t d d₁ (.node j) i := by
  obtain ⟨o', ho', hcopy⟩ := exists_of_forall₂_right (h.children_of_copy hd hj).flip hi
  exact .copied hj ho' hcopy

/-- Every new node below a site that was there is of one of these sorts. -/
theorem Takes.freshAt {y : Site} (hx : d.HasSite x) (hy : d₁.Under y x) (hi : i ∈ d₁.childrenOf y)
    (hnew : d.nodes.size ≤ i.index) : FreshAt style s t d d₁ y i := by
  have hd₁ := h.changes.sound
  have hold : ∀ {y : Site} {i : NodeId}, d.HasSite y → i ∈ d₁.childrenOf y →
      d.nodes.size ≤ i.index → FreshAt style s t d d₁ y i := by
    intro y i hy hi hnew
    have hys : y = s := by
      refine Classical.byContradiction fun hne => ?_
      rw [h.children_of_ne y hy hne] at hi
      exact Nat.not_lt.2 hnew (hd.child_lt hi)
    subst hys
    obtain ⟨news, hnews, hall⟩ := h.children_self
    rw [hnews] at hi
    have hmem := (List.mem_append.1 hi).resolve_left fun hold => Nat.not_lt.2 hnew (hd.child_lt hold)
    obtain ⟨o, ho, hplanted⟩ := exists_of_forall₂_right hall hmem
    exact .planted hy ho hplanted
  induction hy generalizing i with
  | refl => exact hold hx hi hnew
  | @up j p _ hp _ ih =>
    by_cases hj : j.index < d.nodes.size
    · exact hold (y := .node j) hj hi hnew
    -- the node above is new, too
    rcases ih hx ((hd₁.parent_iff p j).2 hp) (Nat.not_lt.1 hj) with
      ⟨-, ho, hplanted⟩ | ⟨-, -, hcopy⟩ | ⟨-, -, -, -, hcopy⟩
    · cases hw : d.wraps s _ with
      | false =>
        refine h.copied_child hd ⟨hd.under_of_mem (.refl t) ho, hplanted.new, hplanted.lt, ?_⟩ hi
        exact hplanted.direct hw
      | true =>
        rcases h.planted_cases hd ho hplanted with ⟨hw', -⟩ | ⟨-, -, c, hcopy, hc⟩
        · exact absurd (wraps_eq_true.1 hw) hw'
        · rw [hc] at hi
          rw [List.mem_singleton.1 hi]
          exact .wrapped ho hplanted hw hc hcopy
    · exact h.copied_child hd hcopy hi
    · exact h.copied_child hd hcopy hi

/-- New nodes are reached through the site. -/
theorem Takes.exists_way (hx : d.HasSite x) (hi : d₁.Under (.node i) x)
    (hnew : d.nodes.size ≤ i.index) : ∃ n ∈ d₁.childrenOf s, d.nodes.size ≤ n.index ∧
      ∃ p, d₁.Leads (.node n) p (.node i) := by
  have hd₁ := h.changes.sound
  generalize hy : Site.node i = y at hi
  induction hi generalizing i with
  | refl =>
    subst hy
    exact absurd hx (Nat.not_lt.2 hnew)
  | @up j p _ hp hpx ih =>
    cases hy
    have hmem := (hd₁.parent_iff p j).2 hp
    cases h.freshAt hd hx hpx hmem hnew with
    | planted => exact ⟨j, hmem, hnew, [], .nil _⟩
    | copied hj =>
      obtain ⟨n, hn, hnn, p, hway⟩ := ih hx hj.new rfl
      exact ⟨n, hn, hnn, _, hway.snoc hmem⟩
    | wrapped _ hj =>
      obtain ⟨n, hn, hnn, p, hway⟩ := ih hx hj.new rfl
      exact ⟨n, hn, hnn, _, hway.snoc hmem⟩

/-- A new node has the path that goes on from where it hangs. -/
theorem Takes.path_new {y : Site} (hx : d.HasSite x) (hy : d₁.Under y x) (hi : i ∈ d₁.childrenOf y)
    (hnew : d.nodes.size ≤ i.index) : (d₁.node i).path = (d₁.pathOf y).child (d₁.node i).name := by
  have below : ∀ {j : NodeId}, d.nodes.size ≤ j.index → d₁.Under (.node j) x →
      i ∈ d₁.childrenOf (.node j) → (d₁.node i).path = (d₁.node j).path.child (d₁.node i).name := by
    intro j hj hjx hij
    obtain ⟨n, hn, hnn, p, hway⟩ := h.exists_way hd hx hjx hj
    rw [h.paths n hn hnn p j hway, h.paths n hn hnn _ i (hway.snoc hij), SchemaPath.child,
      SchemaPath.down, SchemaPath.down, List.append_assoc, List.cons_append]
  cases h.freshAt hd hx hy hi hnew with
  | planted hs =>
    rw [h.paths i hi hnew [] i (.nil _), h.changes.keeps.pathOf hs]
    rfl
  | copied hj => exact below hj.new hy hi
  | wrapped _ hj => exact below hj.new hy hi

end Takes

/-! ## Regular drafts -/

/-- Below the sites of `d₀` the draft `d` is regular. -/
structure Regular (d₀ d : Draft) : Prop where
  paths : ∀ x, d₀.HasSite x → ∀ y, d.Under y x → ∀ c ∈ d.childrenOf y,
    (d.node c).path = (d.pathOf y).child (d.node c).name
  cases : ∀ x, d₀.HasSite x → ∀ i, d.Under (.node i) x → (d.node i).kind = .caseNode true →
    ∃ c, d.CaseOf i c
  unwrapped : ∀ x, d₀.HasSite x → ∀ y, d.Under y x → d.isChoice y = false →
    ∀ c ∈ d.childrenOf y, (d.node c).kind ≠ .caseNode true

namespace Regular

theorem quiet (h : d₀.Regular d) (hd : d.Sound) (hk : d₀.Keeps d) (hq : Quiet s d d₁) :
    d₀.Regular d₁ := by
  have hk₁ := hq.keeps
  have hsite : ∀ {x y}, d₀.HasSite x → d₁.Under y x → d.HasSite y := fun hx hy =>
    hq.hasSite_of_under hd (hk.hasSite hx) hy
  refine ⟨fun x hx y hy c hc => ?_, fun x hx i hi hkind => ?_, fun x hx y hy hch c hc => ?_⟩
  · have hys := hsite hx hy
    rw [hq.children_eq y hys] at hc
    have hlt := hd.child_lt hc
    rw [hk₁.path c hlt, hk₁.name c hlt, hk₁.pathOf hys]
    exact h.paths x hx y ((hk₁.under_iff hd hys).1 hy) c hc
  · have his : i.index < d.nodes.size := hsite hx hi
    rw [hk₁.kind i his] at hkind
    obtain ⟨c, hc⟩ := h.cases x hx i ((hk₁.under_iff hd (x := .node i) his).1 hi) hkind
    exact ⟨c, hc.keeps hd hk₁⟩
  · have hys := hsite hx hy
    rw [hq.children_eq y hys] at hc
    rw [hk₁.isChoice hys] at hch
    rw [hk₁.kind c (hd.child_lt hc)]
    exact h.unwrapped x hx y ((hk₁.under_iff hd hys).1 hy) hch c hc

theorem caseOf_planted (ht : Takes style s t d d₁) (hc : d₁.childrenOf (.node i) = [c])
    (hi : Planted style s d d₁ o i) (hw : d.wraps s o = true) (hcopy : IsCopy t d d₁ o c) :
    d₁.CaseOf i c where
  first := ⟨[], hc⟩
  name := by rw [ht.name_of_copy hcopy, hi.name]
  not_case := by
    rw [wraps_eq, Bool.and_eq_true, Bool.not_eq_true'] at hw
    rw [(ht.copyOf hcopy).kind, CopyStyle.isCase_kind, hw.2]

section Takes

variable (h : d₀.Regular d) (hd : d.Sound) (ht : Takes style s t d d₁)
  (hbody : d.HasSite t → d₀.HasSite t)
include h hd ht hbody

theorem exists_caseOf_copy (hi : IsCopy t d d₁ o i) (hkind : (d₁.node i).kind = .caseNode true) :
    ∃ c, d₁.CaseOf i c := by
  rw [(ht.copyOf hi).kind, CopyStyle.kind_eq_caseNode] at hkind
  have hts := hbody (hd.hasSite_above hi.under (lt_of_under hi.under ht.root))
  obtain ⟨c, ⟨rest, hrest⟩, hname, hcase⟩ := h.cases t hts o hi.under hkind
  have hchildren := ht.children_of_copy hd hi
  rw [hrest] at hchildren
  cases hl : d₁.childrenOf (.node i) with
  | nil =>
    rw [hl] at hchildren
    cases hchildren
  | cons c' rest' =>
    rw [hl] at hchildren
    cases hchildren with
    | cons hc' _ =>
      refine ⟨c', ⟨rest', hl⟩, ?_, ?_⟩
      · rw [ht.name_of_copy hc', ht.name_of_copy hi, hname]
      · rw [(ht.copyOf hc').kind, CopyStyle.isCase_kind, hcase]

/-- A new shorthand case is the copy of one, or was put around a copy. -/
theorem exists_caseOf_new (hx : d.HasSite x) (hi : d₁.Under (.node i) x)
    (hnew : d.nodes.size ≤ i.index) (hkind : (d₁.node i).kind = .caseNode true) :
    ∃ c, d₁.CaseOf i c := by
  cases hi with
  | refl => exact absurd hx (Nat.not_lt.2 hnew)
  | @up _ p _ hp hpx =>
    have hmem := (ht.changes.sound.parent_iff p i).2 hp
    cases ht.freshAt hd hx hpx hmem hnew with
    | planted _ ho hi =>
      rcases ht.planted_cases hd ho hi with ⟨-, hcopy⟩ | ⟨hw, -, c, hcopy, hc⟩
      · exact h.exists_caseOf_copy hd ht hbody hcopy hkind
      · exact ⟨c, caseOf_planted ht hc hi (wraps_eq_true.2 hw) hcopy⟩
    | copied _ _ hi => exact h.exists_caseOf_copy hd ht hbody hi hkind
    | wrapped _ _ _ _ hi => exact h.exists_caseOf_copy hd ht hbody hi hkind

/-- A new node that hangs under no choice is no shorthand case. -/
theorem kind_ne_of_freshAt {y : Site} (hc : FreshAt style s t d d₁ y c)
    (hch : d₁.isChoice y = false) : (d₁.node c).kind ≠ .caseNode true := by
  cases hc with
  | planted hs ho hi =>
    rw [ht.changes.keeps.isChoice hs] at hch
    rcases ht.planted_cases hd ho hi with ⟨-, hcopy⟩ | ⟨⟨hw, -⟩, -⟩
    · rw [(ht.copyOf hcopy).kind, ne_eq, CopyStyle.kind_eq_caseNode]
      have hroot : d.isChoice t = false := by
        cases t with
        | node j => exact absurd rfl (ht.root j)
        | _ => rfl
      exact h.unwrapped t (hbody (hasSite_of_mem_childrenOf ho)) t (.refl t) hroot _ ho
    · rw [hch] at hw
      cases hw
  | copied hj ho hi =>
    rw [(ht.copyOf hi).kind, ne_eq, CopyStyle.kind_eq_caseNode]
    have hts := hbody (hd.hasSite_above hj.under (lt_of_under hj.under ht.root))
    refine h.unwrapped t hts _ hj.under ?_ _ ho
    exact (NodeKind.isChoice_eq (ht.keyword_of_copy hj)).symm.trans hch
  | wrapped _ _ hw _ hi =>
    rw [(ht.copyOf hi).kind, ne_eq, CopyStyle.kind_eq_caseNode]
    rw [wraps_eq, Bool.and_eq_true, Bool.not_eq_true'] at hw
    intro hkind
    rw [hkind] at hw
    cases hw.2

/-- Below the sites of `d₀` the draft stays regular when a body of `d₀` is copied. -/
theorem takes (hk : d₀.Keeps d) : d₀.Regular d₁ := by
  have hk₁ := ht.changes.keeps
  have hold : ∀ {y c}, c ∈ d₁.childrenOf y → c.index < d.nodes.size → c ∈ d.childrenOf y :=
    hk₁.mem_childrenOf hd ht.changes.sound
  refine ⟨fun x hx y hy c hc => ?_, fun x hx i hi hkind => ?_, fun x hx y hy hch c hc => ?_⟩
  · by_cases hlt : c.index < d.nodes.size
    · have hcd := hold hc hlt
      have hys := hasSite_of_mem_childrenOf hcd
      rw [hk₁.path c hlt, hk₁.name c hlt, hk₁.pathOf hys]
      exact h.paths x hx y ((hk₁.under_iff hd hys).1 hy) c hcd
    · exact ht.path_new hd (hk.hasSite hx) hy hc (Nat.not_lt.1 hlt)
  · by_cases hlt : i.index < d.nodes.size
    · rw [hk₁.kind i hlt] at hkind
      obtain ⟨c, hc⟩ := h.cases x hx i ((hk₁.under_iff hd (x := .node i) hlt).1 hi) hkind
      exact ⟨c, hc.keeps hd hk₁⟩
    · exact h.exists_caseOf_new hd ht hbody (hk.hasSite hx) hi (Nat.not_lt.1 hlt) hkind
  · by_cases hlt : c.index < d.nodes.size
    · have hcd := hold hc hlt
      have hys := hasSite_of_mem_childrenOf hcd
      rw [hk₁.isChoice hys] at hch
      rw [hk₁.kind c hlt]
      exact h.unwrapped x hx y ((hk₁.under_iff hd hys).1 hy) hch c hcd
    · exact h.kind_ne_of_freshAt hd ht hbody
        (ht.freshAt hd (hk.hasSite hx) hy hc (Nat.not_lt.1 hlt)) hch

end Takes

end Regular

end Draft

end YangSchema
