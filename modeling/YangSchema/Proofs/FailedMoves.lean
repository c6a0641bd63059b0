import YangSchema.Draft.Freeze
import YangSchema.Proofs.Draft.Moving
import YangSchema.Proofs.Inference.Deviations

/-!
# Moves that fail

Attaching a node, or taking one out, is several edits in a row, and each of them is refused if its record
is frozen.  The site is looked at before anything is changed, the node that moves only afterwards: so a
move that fails leaves the tree as it was exactly if it was the site that refused it
(`failed_move_keeps_tree_iff`).  Where the node or something below it is frozen, the move stops half way:
the site lists a node that does not name it as its parent, or the other way round.
-/

namespace YangSchema

namespace Draft

open Edit

variable {d d₁ d₂ d' : Draft} {s t : Site} {c i j x y : NodeId} {f : Fault}

/-- The records that there were have the same children, parents and paths. -/
structure SameTree (d d' : Draft) : Prop where
  childrenOf : ∀ t, d.HasSite t → d'.childrenOf t = d.childrenOf t
  parent : ∀ i, i.index < d.nodes.size → (d'.node i).parent = (d.node i).parent
  pathOf : ∀ t, d.HasSite t → d'.pathOf t = d.pathOf t

theorem SameTree.of_extends (h : d.Extends d') : d.SameTree d' where
  childrenOf _ ht := h.childrenOf ht
  parent i hi := congrArg NodeDraft.parent (h.node i hi)
  pathOf _ ht := h.pathOf ht

/-! ## Attaching -/

/-- The node `c`, or a new case for it, is listed at `s`, and then attaching stops with the fault `f`: at or
below `c` a node is frozen, or going down from `c` does not end. -/
structure HalfAttached (d : Draft) (s : Site) (c : NodeId) (f : Fault) (d' : Draft) : Prop where
  listed : d'.childrenOf s = d.childrenOf s ++ [if d.wraps s c then ⟨d.nodes.size⟩ else c]
  childrenOf : ∀ t, d.HasSite t → t ≠ s → d'.childrenOf t = d.childrenOf t
  parent : ∀ i, i.index < d.nodes.size → i ≠ c → (d'.node i).parent = (d.node i).parent
  path : ∀ i, i.index < d.nodes.size → d.nodes.isFrozen i.index = true ∨ ¬ d.Below i c →
    (d'.node i).path = (d.node i).path
  pathOf : ∀ t, (∀ i, t ≠ .node i) → d'.pathOf t = d.pathOf t
  stops : (∃ j, d.Below j c ∧ d.nodes.isFrozen j.index = true ∧
      f = .internal (.alreadyFrozen j.render)) ∨
    (∃ j : NodeId, f = .nestedInItself j.render) ∧
      ¬ Nests (fun y x => y ∈ d'.childrenOf (.node x)) d'.nodes.size c

theorem mem_childrenOf_hung (h : y ∈ (d.mapChildren s (· ++ [c])).childrenOf t) :
    y ∈ d.childrenOf t ∨ y = c ∧ t = s := by
  by_cases hst : s = t
  · subst hst
    by_cases hs : d.HasSite s
    · rw [childrenOf_mapChildren_self hs] at h
      exact (List.mem_append.1 h).imp_right fun h => ⟨List.mem_singleton.1 h, rfl⟩
    · rw [childrenOf_of_not_hasSite ((hasSite_mapChildren s s _).not.2 hs)] at h
      cases h
  · rw [childrenOf_mapChildren_of_ne hst] at h
    exact .inl h

/-- The node stands right under the site. -/
theorem HalfPlaced.halfAttached (h : d.HalfPlaced s c f d') (hs : d.HasSite s)
    (hw : d.wraps s c = false) : d.HalfAttached s c f d' := by
  have hbelow : ∀ j, d'.Below j c → d.Below j c := fun j hj =>
    (hj.of_more (N := fun _ => False) (fun _ h => h.elim) fun x y hy =>
      (mem_childrenOf_hung (h.childrenOf _ ▸ hy)).imp_right fun h => .inl h.1).resolve_right id
  refine ⟨?_, fun t _ ht => ?_, fun i _ hi => h.parent i hi,
    fun i _ hi => h.path i (hi.imp_right fun hi hb => hi (hbelow i hb)), h.pathOf, ?_⟩
  · rw [h.childrenOf, childrenOf_mapChildren_self hs, hw]
    rfl
  · rw [h.childrenOf, childrenOf_mapChildren_of_ne (Ne.symm ht)]
  · cases h.stops with
    | frozen hj hfrozen => exact .inl ⟨_, hbelow _ hj, (h.isFrozen _).symm.trans hfrozen, rfl⟩
    | endless _ hends => exact .inr ⟨⟨_, rfl⟩, h.size ▸ hends⟩

theorem eq_of_below_of_nil (hnil : d.childrenOf (.node i) = []) (h : d.Below j i) : j = i := by
  rcases h.cases_tail with rfl | ⟨x, -, hx⟩
  · rfl
  · rw [hnil] at hx
    cases hx

theorem ne_new_of_hasSite (ht : d.HasSite t) : t ≠ .node ⟨d.nodes.size⟩ := by
  rintro rfl
  exact Nat.lt_irrefl _ ht

/-- A new node without children is placed, unless the site is frozen. -/
theorem ends_place_new (hs : d.HasSite s) {r : NodeDraft} (hr : r.children = []) :
    Ends (place s ⟨d.nodes.size⟩) (d.withNode r)
      (fun _ d' => d.isFrozenAt s = false ∧
        ((d.withNode r).placed s ⟨d.nodes.size⟩).RepathedBelow ⟨d.nodes.size⟩ d')
      fun _ d' => d.isFrozenAt s = true ∧ d' = d.withNode r := by
  have hfrozen : (d.withNode r).isFrozenAt s = d.isFrozenAt s := by
    cases s with
    | node i => exact Shelf.isFrozen_push _ _ _
    | _ => rfl
  have hopen : (d.withNode r).nodes.isFrozen d.nodes.size = false :=
    (Shelf.isFrozen_push _ _ _).trans (Shelf.isFrozen_of_size_le (Nat.le_refl _))
  refine (ends_place_any s ⟨d.nodes.size⟩ (d.withNode r)).mono
    (fun _ d' h => ⟨hfrozen.symm.trans h.1, h.2.1⟩) fun f d' h => ?_
  rcases h with ⟨hs, -, rfl⟩ | ⟨-, h⟩
  · exact ⟨hfrozen.symm.trans hs, rfl⟩
  · -- nothing stops it: it is open, and there is nothing below it
    have hnil : d'.childrenOf (.node ⟨d.nodes.size⟩) = [] := by
      rw [h.childrenOf, childrenOf_mapChildren_of_ne (ne_new_of_hasSite hs)]
      show ((d.withNode r).node ⟨d.nodes.size⟩).children = []
      rw [node_withNode_self, hr]
    cases h.stops with
    | @frozen j hj hfrozen =>
      rw [eq_of_below_of_nil hnil hj, h.isFrozen, hopen] at hfrozen
      cases hfrozen
    | endless _ hends =>
      refine absurd ?_ hends
      rw [show (d.withNode r).nodes.size = d.nodes.size + 1 from Shelf.size_push _ _]
      refine .mk fun y hy => ?_
      rw [hnil] at hy
      cases hy

/-- A new node without children stands at the end of the site, and all that there was is as it was. -/
structure CasePlaced (s : Site) (d d₂ : Draft) : Prop where
  listed : d₂.childrenOf s = d.childrenOf s ++ [⟨d.nodes.size⟩]
  childrenOf : ∀ t, d.HasSite t → t ≠ s → d₂.childrenOf t = d.childrenOf t
  of_mem : ∀ {t y}, y ∈ d₂.childrenOf t → y ∈ d.childrenOf t ∨ y = ⟨d.nodes.size⟩
  isFrozen : ∀ k, d₂.nodes.isFrozen k = d.nodes.isFrozen k
  parent : ∀ i, i.index < d.nodes.size → (d₂.node i).parent = (d.node i).parent
  path : ∀ i, i.index < d.nodes.size → (d₂.node i).path = (d.node i).path
  pathOf : ∀ t, (∀ i, t ≠ .node i) → d₂.pathOf t = d.pathOf t

theorem CasePlaced.of_repathedBelow {r : NodeDraft} (hr : r.children = []) (hs : d.HasSite s)
    (hplaced : ((d.withNode r).placed s ⟨d.nodes.size⟩).RepathedBelow ⟨d.nodes.size⟩ d₂) :
    CasePlaced s d d₂ := by
  have hext : d.Extends (d.withNode r) := .withNode d r
  have hnil : ((d.withNode r).placed s ⟨d.nodes.size⟩).childrenOf (.node ⟨d.nodes.size⟩) = [] := by
    rw [childrenOf_placed_of_ne (Ne.symm (ne_new_of_hasSite hs))]
    show ((d.withNode r).node ⟨d.nodes.size⟩).children = []
    rw [node_withNode_self, hr]
  -- the nodes that there were have the parents and paths that they had
  have hnode : ∀ i, i.index < d.nodes.size → ((d.withNode r).placed s ⟨d.nodes.size⟩).node i =
      { d.node i with children := d₂.childrenOf (.node i) } := by
    intro i hi
    have hiw : i ≠ ⟨d.nodes.size⟩ := fun h => ne_new_of_hasSite (t := .node i) hi (congrArg Site.node h)
    rw [node_placed (Shelf.lt_size_push _ _), hplaced.repathed.childrenOf, if_neg hiw, hext.node i hi]
  refine {
    listed := by
      rw [hplaced.repathed.childrenOf, childrenOf_placed_self (hext.hasSite hs), hext.childrenOf hs]
    childrenOf := fun t ht hts => by
      rw [hplaced.repathed.childrenOf, childrenOf_placed_of_ne hts, hext.childrenOf ht]
    of_mem := fun hy => ?_
    isFrozen := fun k => by
      rw [hplaced.isFrozen, isFrozen_placed]
      exact Shelf.isFrozen_push _ _ _
    parent := fun i hi => by rw [hplaced.repathed.parent, hnode i hi]
    path := fun i hi => ?_
    pathOf := fun t ht => ?_ }
  · rw [hplaced.repathed.childrenOf, childrenOf_placed] at hy
    rcases mem_childrenOf_hung hy with hy | ⟨hy, -⟩
    · rw [childrenOf_withNode hr] at hy
      exact .inl hy
    · exact .inr hy
  · rw [hplaced.node i (.inr fun hb => ?_), hnode i hi]
    · rfl
    · exact ne_new_of_hasSite (t := .node i) hi (congrArg Site.node (eq_of_below_of_nil hnil hb))
  · rw [hplaced.pathOf ht, pathOf_placed]
    cases t with
    | node j => exact absurd rfl (ht j)
    | _ => rfl

/-- A new case stands under the site, and the node is listed in the case. -/
theorem HalfPlaced.halfAttached_wrapped (hs : d.HasSite s) (hw : d.wraps s c = true)
    (hcase : CasePlaced s d d₂) (h : d₂.HalfPlaced (.node ⟨d.nodes.size⟩) c f d') :
    d.HalfAttached s c f d' := by
  -- below `c` there is nothing but what there was, and perhaps the case
  have hbelow : ∀ j, d'.Below j c → d.Below j c ∨ j = ⟨d.nodes.size⟩ := by
    intro j hj
    refine hj.of_more (N := (· = ⟨d.nodes.size⟩)) (fun x hx => ?_) fun x y hy => ?_
    · rw [hx]
      exact childrenOf_of_not_hasSite fun h => ne_new_of_hasSite h rfl
    · rw [h.childrenOf] at hy
      rcases mem_childrenOf_hung hy with hy | ⟨hy, -⟩
      · exact (hcase.of_mem hy).imp_right .inr
      · exact .inr (.inl hy)
  refine ⟨?_, fun t ht hts => ?_, fun i hi hic => ?_, fun i hi hopen => ?_, fun t ht => ?_, ?_⟩
  · rw [h.childrenOf, childrenOf_mapChildren_of_ne (Ne.symm (ne_new_of_hasSite hs)), hcase.listed, hw]
    rfl
  · rw [h.childrenOf, childrenOf_mapChildren_of_ne (Ne.symm (ne_new_of_hasSite ht)),
      hcase.childrenOf t ht hts]
  · rw [h.parent i hic, hcase.parent i hi]
  · refine (h.path i (hopen.imp (hcase.isFrozen _).trans fun hi' hb => ?_)).trans (hcase.path i hi)
    rcases hbelow i hb with hb | rfl
    · exact hi' hb
    · exact ne_new_of_hasSite (t := .node ⟨d.nodes.size⟩) hi rfl
  · rw [h.pathOf t ht, hcase.pathOf t ht]
  · cases h.stops with
    | @frozen j hj hfrozen =>
      rw [h.isFrozen, hcase.isFrozen] at hfrozen
      rcases hbelow j hj with hb | rfl
      · exact .inl ⟨j, hb, hfrozen, rfl⟩
      · rw [Shelf.isFrozen_of_size_le (Nat.le_refl _)] at hfrozen
        cases hfrozen
    | endless _ hends => exact .inr ⟨⟨_, rfl⟩, h.size ▸ hends⟩

/-- Attaching fails before anything is changed, or when the node is listed already. -/
theorem ends_attach_any (hs : d.HasSite s) (c : NodeId) :
    Ends (attach s c) d (fun _ _ => True) fun f d' =>
      (d.accepts s = false ∨ d.isFrozenAt s = true) ∧ d.SameTree d' ∨
      d.accepts s = true ∧ d.isFrozenAt s = false ∧ d.HalfAttached s c f d' := by
  have hplace : d.accepts s = true → d.wraps s c = false →
      Ends (do place s c; return c) d (fun _ _ => True) fun f d' =>
        (d.accepts s = false ∨ d.isFrozenAt s = true) ∧ d.SameTree d' ∨
        d.accepts s = true ∧ d.isFrozenAt s = false ∧ d.HalfAttached s c f d' := by
    intro ha hw
    rw [ends_bind]
    refine (ends_place_any s c d).mono (fun _ _ _ => trivial) fun f d' h => ?_
    rcases h with ⟨hf, -, rfl⟩ | ⟨hopen, h⟩
    · exact .inl ⟨.inr hf, .of_extends (.refl _)⟩
    · exact .inr ⟨ha, hopen, h.halfAttached hs hw⟩
  unfold attach
  rw [ends_bind, ends_get]
  cases s with
  | module i => exact hplace rfl rfl
  | grouping i => exact hplace rfl rfl
  | augment i => exact hplace rfl rfl
  | node p =>
    dsimp only
    split
    · next hacc =>
      rw [ends_bind, ends_throw]
      exact .inl ⟨.inl (by simpa [accepts] using hacc), .of_extends (.refl _)⟩
    · next hacc =>
      have ha : d.accepts (.node p) = true := by simpa [accepts] using hacc
      split
      · next hw =>
        have hext : d.Extends (d.withNode (shorthandFor (d.node c))) := .withNode d _
        rw [ends_bind, ends_addNode, ends_bind]
        refine (ends_place_new hs rfl).mono ?_ fun f d' h => ?_
        · rintro - d₂ ⟨hopen, hplaced⟩
          rw [ends_bind]
          refine (ends_place_any (.node ⟨d.nodes.size⟩) c d₂).mono (fun _ _ _ => trivial)
            fun f d' h => ?_
          rcases h with ⟨hf, -, -⟩ | ⟨-, h⟩
          · -- the case is new
            have hf : d₂.nodes.isFrozen d.nodes.size = true := hf
            rw [hplaced.isFrozen, isFrozen_placed] at hf
            have hnew := (Shelf.isFrozen_push d.nodes (shorthandFor (d.node c)) d.nodes.size).trans
              (Shelf.isFrozen_of_size_le (Nat.le_refl _))
            exact absurd (hf.symm.trans hnew) Bool.noConfusion
          · exact .inr ⟨ha, hopen, h.halfAttached_wrapped hs hw (.of_repathedBelow rfl hs hplaced)⟩
        · obtain ⟨hf, rfl⟩ := h
          exact .inl ⟨.inr hf, .of_extends hext⟩
      · next hw => exact hplace ha (by simpa [wraps] using hw)

/-! ## Taking out -/

/-- Some nodes are listed no more or have no parent any more, and then taking out stops at a frozen record
with the fault `f`. -/
structure HalfDetached (d : Draft) (f : Fault) (d' : Draft) : Prop where
  childrenOf : ∀ t, (d'.childrenOf t).Sublist (d.childrenOf t)
  parent : ∀ i, (d'.node i).parent = (d.node i).parent ∨ (d'.node i).parent = none
  pathOf : ∀ t, d'.pathOf t = d.pathOf t
  stops : ∃ t, d.isFrozenAt t = true ∧ f = .internal (.alreadyFrozen t.render)

theorem sublist_mapChildren (s t : Site) (c : NodeId) :
    ((d.mapChildren s (·.filter (· != c))).childrenOf t).Sublist (d.childrenOf t) := by
  by_cases hst : s = t
  · subst hst
    by_cases hs : d.HasSite s
    · rw [childrenOf_mapChildren_self hs]
      exact List.filter_sublist
    · rw [childrenOf_of_not_hasSite ((hasSite_mapChildren s s _).not.2 hs)]
      exact List.nil_sublist _
  · rw [childrenOf_mapChildren_of_ne hst]

theorem not_mem_childrenOf_filtered (s : Site) (c : NodeId) :
    c ∉ (d.mapChildren s (·.filter (· != c))).childrenOf s := by
  by_cases hs : d.HasSite s
  · rw [childrenOf_mapChildren_self hs]
    simp
  · rw [childrenOf_of_not_hasSite ((hasSite_mapChildren s s _).not.2 hs)]
    exact List.not_mem_nil

theorem isFrozenAt_detached (t : Site) : (d.detached s c).isFrozenAt t = d.isFrozenAt t := by
  cases t with
  | node i =>
    show (d.detached s c).nodes.isFrozen i.index = _
    rw [Shelf.isFrozen, detached, snapshot?_mapNode, snapshot?_mapChildren]
    rfl
  | module i => cases s <;> first | rfl | exact Shelf.isFrozen_update _ _ _ _
  | grouping i => cases s <;> first | rfl | exact Shelf.isFrozen_update _ _ _ _
  | augment i => cases s <;> first | rfl | exact Shelf.isFrozen_update _ _ _ _

theorem pathOf_detached (t : Site) : (d.detached s c).pathOf t = d.pathOf t := by
  cases t with
  | node i =>
    show ((Draft.mapNode _ c _).node i).path = _
    rw [node_mapNode, node_mapChildren]
    split <;> rfl
  | module i => rfl
  | grouping i => exact pathOf_mapChildren (.grouping i) _
  | augment i => exact pathOf_mapChildren (.augment i) _

/-- Taking a node out stops at its parent, at the node itself, or at a shorthand case that it leaves
empty. -/
theorem ends_detachUpTo_any (fuel : Nat) (c : NodeId) (d : Draft) :
    Ends (detachUpTo (fuel + 1) c) d (fun _ _ => True) fun f d' =>
      ∃ s, (d.node c).parent = some s ∧
        (d.isFrozenAt s = true ∧ f = .internal (.alreadyFrozen s.render) ∧ d' = d ∨
          d.isFrozenAt s = false ∧
            (d.nodes.isFrozen c.index = true ∧ f = .internal (.alreadyFrozen c.render) ∧
                d' = d.mapChildren s (·.filter (· != c)) ∨
              d.nodes.isFrozen c.index = false ∧
                ∃ p, (detachUpTo fuel p).perform (d.detached s c) = (.error f, d'))) := by
  rw [detachUpTo, ends_bind, ends_get]
  split
  next s hs =>
    rw [ends_bind, ends_editChildren_any]
    split
    · next hfrozen => exact ⟨s, hs, .inl ⟨hfrozen, rfl, rfl⟩⟩
    · next hopen =>
      have hopen : d.isFrozenAt s = false := by simpa using hopen
      rw [ends_bind, ends_editNode_any, isFrozen_mapChildren]
      split
      · next hc => exact ⟨s, hs, .inr ⟨hopen, .inl ⟨hc, rfl, rfl⟩⟩⟩
      · next hc =>
        have hc : d.nodes.isFrozen c.index = false := by simpa using hc
        change Ends _ (d.detached s c) _ _
        split
        · rw [ends_bind, ends_get]
          dsimp only
          split
          · refine ends_iff.2 ⟨fun _ _ _ => trivial, fun f d' he => ?_⟩
            exact ⟨_, hs, .inr ⟨hopen, .inr ⟨hc, _, he⟩⟩⟩
          · trivial
        · trivial
  · trivial

/-- Where it stops, some nodes are out already. -/
theorem halfDetached_detachUpTo (fuel : Nat) : ∀ (c : NodeId) (d : Draft) (f : Fault) (d' : Draft),
    (detachUpTo fuel c).perform d = (.error f, d') → d.HalfDetached f d' := by
  induction fuel with
  | zero =>
    intro c d f d' he
    cases he
  | succ fuel ih =>
    intro c d f d' he
    obtain ⟨s, hs, ⟨hfrozen, rfl, rfl⟩ | ⟨-, ⟨hc, rfl, rfl⟩ | ⟨-, p, he⟩⟩⟩ :=
      (ends_detachUpTo_any fuel c d).of_error he
    · exact ⟨fun _ => List.Sublist.refl _, fun _ => .inl rfl, fun _ => rfl, s, hfrozen, rfl⟩
    · refine ⟨fun t => sublist_mapChildren s t c, fun i => .inl ?_, fun t => pathOf_mapChildren t _,
        .node c, hc, rfl⟩
      rw [node_mapChildren]
    · have hrest := ih p _ f d' he
      refine ⟨fun t => (hrest.childrenOf t).trans ?_, fun i => ?_,
        fun t => (hrest.pathOf t).trans (pathOf_detached t), ?_⟩
      · rw [childrenOf_detached]
        exact sublist_mapChildren s t c
      · rcases hrest.parent i with h | h
        · rw [h, node_detached (lt_of_parent hs)]
          by_cases hic : i = c
          · exact .inr (if_pos hic)
          · exact .inl (if_neg hic)
        · exact .inr h
      · obtain ⟨t, ht, hf⟩ := hrest.stops
        exact ⟨t, (isFrozenAt_detached t).symm.trans ht, hf⟩

/-- The tree stays exactly if it is the parent that is frozen, or a frozen node that its parent did not
list. -/
theorem sameTree_detach_iff (he : (detach c).perform d = (.error f, d')) :
    (d.SameTree d' ↔ ∃ s, (d.node c).parent = some s ∧
      (d.isFrozenAt s = true ∨ d.nodes.isFrozen c.index = true ∧ c ∉ d.childrenOf s)) ∧
    (¬ d.SameTree d' → d.HalfDetached f d' ∧
      ∃ s, (d.node c).parent = some s ∧ c ∉ d'.childrenOf s) := by
  change (detachUpTo (d.nodes.size + 1) c).perform d = _ at he
  have hhalf := halfDetached_detachUpTo _ c d f d' he
  obtain ⟨s, hs, h⟩ := (ends_detachUpTo_any _ c d).of_error he
  have hparent : ∀ t, (d.node c).parent = some t → t = s := by
    intro t ht
    rw [hs] at ht
    exact (Option.some.inj ht).symm
  rcases h with ⟨hfrozen, -, rfl⟩ | ⟨hopen, ⟨hc, -, rfl⟩ | ⟨hc, p, he⟩⟩
  · have hsame : d'.SameTree d' := .of_extends (.refl d')
    exact ⟨iff_of_true hsame ⟨s, hs, .inl hfrozen⟩, fun h => absurd hsame h⟩
  · refine ⟨⟨fun hsame => ⟨s, hs, .inr ⟨hc, fun hmem => ?_⟩⟩, ?_⟩,
      fun _ => ⟨hhalf, s, hs, not_mem_childrenOf_filtered s c⟩⟩
    · refine not_mem_childrenOf_filtered (d := d) s c ?_
      rwa [hsame.childrenOf s (hasSite_of_mem_childrenOf hmem)]
    · rintro ⟨t, ht, hor⟩
      obtain rfl := hparent t ht
      have hmem : c ∉ d.childrenOf t := by
        rcases hor with h | ⟨-, h⟩
        · rw [hopen] at h
          cases h
        · exact h
      refine ⟨fun t' ht' => ?_, fun i _ => by rw [node_mapChildren], fun t' _ => hhalf.pathOf t'⟩
      by_cases htt : t = t'
      · subst htt
        rw [childrenOf_mapChildren_self ht']
        exact List.filter_eq_self.2 fun x hx => by simpa using fun h : x = c => hmem (h ▸ hx)
      · exact childrenOf_mapChildren_of_ne htt _
  · -- the node is out, and a shorthand case above it cannot be taken out
    have hrest := halfDetached_detachUpTo _ p _ f d' he
    have hnone : (d'.node c).parent = none := by
      rcases hrest.parent c with h | h
      · rw [h, node_detached (lt_of_parent hs)]
        exact if_pos rfl
      · exact h
    have hout : c ∉ d'.childrenOf s := by
      intro hmem
      have hmem := (hrest.childrenOf s).subset hmem
      rw [childrenOf_detached] at hmem
      exact not_mem_childrenOf_filtered s c hmem
    refine ⟨iff_of_false (fun hsame => ?_) ?_, fun _ => ⟨hhalf, s, hs, hout⟩⟩
    · have h := hsame.parent c (lt_of_parent hs)
      rw [hnone, hs] at h
      cases h
    · rintro ⟨t, ht, hor⟩
      obtain rfl := hparent t ht
      rcases hor with h | ⟨h, -⟩
      · rw [hopen] at h
        cases h
      · rw [hc] at h
        cases h

/-! ## Both -/

/-- A node that cannot be attached leaves the tree as it was exactly if the site holds no nodes or is
frozen; a node that cannot be taken out, exactly if its parent is frozen, or the node is and its parent
does not list it.  Else the move stops half way. -/
theorem failed_move_keeps_tree_iff (d : Draft) (c : NodeId) :
    (∀ s f d', d.HasSite s → (attach s c).perform d = (.error f, d') →
      (d.SameTree d' ↔ d.accepts s = false ∨ d.isFrozenAt s = true) ∧
      (¬ d.SameTree d' → d.HalfAttached s c f d')) ∧
    (∀ f d', (detach c).perform d = (.error f, d') →
      (d.SameTree d' ↔ ∃ s, (d.node c).parent = some s ∧
        (d.isFrozenAt s = true ∨ d.nodes.isFrozen c.index = true ∧ c ∉ d.childrenOf s)) ∧
      (¬ d.SameTree d' → d.HalfDetached f d' ∧
        ∃ s, (d.node c).parent = some s ∧ c ∉ d'.childrenOf s)) := by
  refine ⟨fun s f d' hs he => ?_, fun f d' he => sameTree_detach_iff he⟩
  rcases (ends_attach_any hs c).of_error he with ⟨hrefused, hsame⟩ | ⟨hacc, hopen, hhalf⟩
  · exact ⟨iff_of_true hsame hrefused, fun h => absurd hsame h⟩
  · refine ⟨iff_of_false (fun hsame => ?_) (by simp [hacc, hopen]), fun _ => hhalf⟩
    have h := hhalf.listed
    rw [hsame.childrenOf s hs] at h
    simpa using congrArg List.length h

/-- A leaf, frozen where it hangs nowhere, is attached to a container; and a leaf that is frozen in its
container is taken out. -/
theorem failed_moves_of_frozen_leaf : ∃ d₁ d₁' d₂ d₂' : Draft, ∃ f₁ f₂ : Fault,
    (attach (.node ⟨0⟩) ⟨1⟩).perform d₁ = (.error f₁, d₁') ∧ ¬ d₁.SameTree d₁' ∧
      d₁.HalfAttached (.node ⟨0⟩) ⟨1⟩ f₁ d₁' ∧
    (detach ⟨1⟩).perform d₂ = (.error f₂, d₂') ∧ ¬ d₂.SameTree d₂' ∧ d₂.HalfDetached f₂ d₂' := by
  have hattach := (failed_move_keeps_tree_iff (Edit.perform (do
    let _ ← addNode (.blank .container ⟨default, "c"⟩)
    let x ← addNode (.blank .leaf ⟨default, "x"⟩)
    freezeNode x) {}).2 ⟨1⟩).1 (.node ⟨0⟩) _ _ (by decide : 0 < 2) rfl
  have hdetach := (failed_move_keeps_tree_iff (Edit.perform (do
    let c ← addNode (.blank .container ⟨default, "c"⟩)
    let x ← addNode (.blank .leaf ⟨default, "x"⟩)
    let _ ← attach (.node c) x
    freezeNode x) {}).2 ⟨1⟩).2 _ _ rfl
  have hkept : ¬ Draft.SameTree _ _ := hattach.1.not.2 (by decide +kernel)
  have hkept' : ¬ Draft.SameTree _ _ := hdetach.1.not.2 fun ⟨s, hs, hor⟩ => by
    cases hs
    revert hor
    decide +kernel
  exact ⟨_, _, _, _, _, _, rfl, hkept, hattach.2 hkept, rfl, hkept', (hdetach.2 hkept').1⟩

end Draft

end YangSchema
