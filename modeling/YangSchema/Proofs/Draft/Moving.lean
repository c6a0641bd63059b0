import YangSchema.Proofs.Draft.Placing

/-!
# Moving nodes in drafts that are frozen in part

An edit of a frozen record is refused.  What attaching comes to in any draft whatever, however much
of it is frozen: giving paths stops at the first frozen node on the way down, with the paths given so
far (`ends_repath_any`); a node is placed as a whole, or not at all, or it is listed and the rest stops
(`ends_place_any`).
-/

namespace YangSchema

theorem Shelf.isFrozen_of_size_le {ρ σ : Type} {s : Shelf ρ σ} {k : Nat} (h : s.size ≤ k) :
    s.isFrozen k = false := by
  unfold isFrozen snapshot?
  rw [Array.getElem?_eq_none h]
  rfl

namespace Draft

open Edit

variable {d d₁ d₂ d' d'' : Draft} {s t : Site} {c i j x : NodeId} {f : Fault}

/-! ## Edits of records that may be frozen -/

/-- Whether the snapshot of a site is taken. -/
def isFrozenAt (d : Draft) : Site → Bool
  | .module i => d.modules.isFrozen i.index
  | .node i => d.nodes.isFrozen i.index
  | .grouping i => d.groupings.isFrozen i.index
  | .augment i => d.augments.isFrozen i.index

section Edits

variable {Q : Unit → Draft → Prop} {E : Fault → Draft → Prop}

theorem ends_of_perform_ite {e : Edit Unit} {frozen : Bool}
    (h : e.perform d = if frozen then (.error f, d) else (.ok (), d')) :
    Ends e d Q E ↔ if frozen then E f d else Q () d' := by
  unfold Ends
  rw [h]
  cases frozen <;> rfl

theorem ends_editNode_any (i : NodeId) (g : NodeDraft → NodeDraft) :
    Ends (editNode i g) d Q E ↔
      if d.nodes.isFrozen i.index then E (.internal (.alreadyFrozen i.render)) d
      else Q () (d.mapNode i g) := ends_of_perform_ite (perform_editNode _ _ _)

theorem ends_editChildren_any (s : Site) (g : List NodeId → List NodeId) :
    Ends (editChildren s g) d Q E ↔
      if d.isFrozenAt s then E (.internal (.alreadyFrozen s.render)) d
      else Q () (d.mapChildren s g) := by
  cases s with
  | module i => exact ends_of_perform_ite (perform_editModule _ _ _)
  | node i => exact ends_of_perform_ite (perform_editNode _ _ _)
  | grouping i => exact ends_of_perform_ite (perform_editGrouping _ _ _)
  | augment i => exact ends_of_perform_ite (perform_editAugment _ _ _)

theorem ends_pushUses_any (s : Site) (u : UsesId) :
    Ends (pushUses s u) d Q E ↔
      if d.isFrozenAt s then E (.internal (.alreadyFrozen s.render)) d
      else Q () (d.pushedUses s u) := by
  cases s with
  | module i => exact ends_of_perform_ite (perform_editModule _ _ _)
  | node i => exact ends_of_perform_ite (perform_editNode _ _ _)
  | grouping i => exact ends_of_perform_ite (perform_editGrouping _ _ _)
  | augment i => exact ends_of_perform_ite (perform_editAugment _ _ _)

end Edits

theorem snapshot?_mapNode (i : NodeId) (g : NodeDraft → NodeDraft) (k : Nat) :
    (d.mapNode i g).nodes.snapshot? k = d.nodes.snapshot? k := Shelf.snapshot?_update _ _ _ _

theorem snapshot?_mapChildren (s : Site) (g : List NodeId → List NodeId) (k : Nat) :
    (d.mapChildren s g).nodes.snapshot? k = d.nodes.snapshot? k := by
  cases s with
  | node i => exact snapshot?_mapNode _ _ _
  | _ => rfl

theorem hasSite_mapChildren (s t : Site) (g : List NodeId → List NodeId) :
    (d.mapChildren s g).HasSite t ↔ d.HasSite t := by
  obtain ⟨h₁, h₂, h₃, h₄, h₅⟩ := d.sizes_mapChildren s g
  exact hasItem_iff_of_sizes h₁ h₂ (congrArg Shelf.size h₃) h₄ h₅ (.site t)

theorem isFrozen_mapChildren (s : Site) (g : List NodeId → List NodeId) (k : Nat) :
    (d.mapChildren s g).nodes.isFrozen k = d.nodes.isFrozen k := by
  rw [Shelf.isFrozen, snapshot?_mapChildren, Shelf.isFrozen]

/-! ## What is listed below a node -/

/-- `j` is the node `i`, or listed somewhere below it. -/
def Below (d : Draft) (j i : NodeId) : Prop :=
  Relation.ReflTransGen (fun y x => y ∈ d.childrenOf (.node x)) j i

/-- Children lists that go on say of what was below `c` only that more of it is there: what they have in
addition is `c` or new. -/
theorem Below.of_more {N : NodeId → Prop} (hnew : ∀ x, N x → d.childrenOf (.node x) = [])
    (hmore : ∀ x y, y ∈ d'.childrenOf (.node x) → y ∈ d.childrenOf (.node x) ∨ y = c ∨ N y)
    (h : d'.Below j c) : d.Below j c ∨ N j := by
  induction h using Relation.ReflTransGen.head_induction_on with
  | refl => exact .inl .refl
  | @head y x hy _ ih =>
    rcases hmore x y hy with hmem | rfl | hy
    · rcases ih with hx | hx
      · exact .inl (.head hmem hx)
      · rw [hnew x hx] at hmem
        cases hmem
    · exact .inl .refl
    · exact .inr hy

/-! ## Giving paths -/

/-- Only paths are other ones, and these only at nodes at or below `i` that are not frozen. -/
structure RepathedBelow (d : Draft) (i : NodeId) (d' : Draft) : Prop where
  repathed : d.Repathed d'
  snapshot? : ∀ k, d'.nodes.snapshot? k = d.nodes.snapshot? k
  node : ∀ j, d.nodes.isFrozen j.index = true ∨ ¬ d.Below j i → d'.node j = d.node j

namespace RepathedBelow

theorem refl (d : Draft) (i : NodeId) : d.RepathedBelow i d :=
  ⟨.refl d, fun _ => rfl, fun _ _ => rfl⟩

theorem isFrozen (h : d.RepathedBelow i d') (k : Nat) :
    d'.nodes.isFrozen k = d.nodes.isFrozen k := by
  rw [Shelf.isFrozen, h.snapshot?, Shelf.isFrozen]

theorem below_iff (h : d.RepathedBelow i d') : d'.Below j c ↔ d.Below j c := by
  have heq : (fun y x => y ∈ d'.childrenOf (.node x)) = fun y x => y ∈ d.childrenOf (.node x) := by
    funext y x
    rw [h.repathed.childrenOf]
  unfold Below
  rw [heq]

/-- Paths are given below a node that is below `i`. -/
theorem trans (h : d.RepathedBelow i d') (hx : d.Below x i) (h' : d'.RepathedBelow x d'') :
    d.RepathedBelow i d'' where
  repathed := h.repathed.trans h'.repathed
  snapshot? k := (h'.snapshot? k).trans (h.snapshot? k)
  node j hj := by
    refine (h'.node j (hj.imp (h.isFrozen _).trans fun hj hjx => hj ?_)).trans (h.node j hj)
    exact (h.below_iff.1 hjx).trans hx

theorem self (hi : d.nodes.isFrozen i.index = false) (g : NodeDraft → SchemaPath) :
    d.RepathedBelow i (d.mapNode i fun r => r.withPath (g r)) where
  repathed := by
    refine ⟨rfl, Shelf.size_update _ _ _, fun j => ?_⟩
    rw [node_mapNode]
    split <;> rfl
  snapshot? := snapshot?_mapNode _ _
  node j hj := by
    refine node_mapNode_of_ne ?_ _
    rintro rfl
    rcases hj with hj | hj
    · rw [hi] at hj
      cases hj
    · exact hj .refl

end RepathedBelow

/-- Why giving paths stops at or below `i`: at a frozen node, or since going down takes more than
`fuel` steps. -/
inductive Stops (d : Draft) (fuel : Nat) (i : NodeId) : Fault → Prop
  | frozen {j : NodeId} (hj : d.Below j i) (hfrozen : d.nodes.isFrozen j.index = true) :
    Stops d fuel i (.internal (.alreadyFrozen j.render))
  | endless {j : NodeId} (hj : d.Below j i)
    (hends : ¬ Nests (fun y x => y ∈ d.childrenOf (.node x)) fuel i) :
    Stops d fuel i (.nestedInItself j.render)

theorem Stops.of_child {fuel : Nat} (h : d.RepathedBelow i d') (hx : x ∈ d.childrenOf (.node i))
    (hstops : d'.Stops fuel x f) : d.Stops (fuel + 1) i f := by
  cases hstops with
  | frozen hj hfrozen =>
    exact .frozen (.tail (h.below_iff.1 hj) hx) ((h.isFrozen _).symm.trans hfrozen)
  | endless hj hends =>
    refine .endless (.tail (h.below_iff.1 hj) hx) fun hnests => hends ?_
    have heq : (fun y x => y ∈ d'.childrenOf (.node x)) = fun y x => y ∈ d.childrenOf (.node x) := by
      funext y x
      rw [h.repathed.childrenOf]
    rw [heq]
    exact hnests.down hx

/-- Giving paths succeeds only where nothing is frozen on the way. -/
theorem ends_repath_any (fuel : Nat) : ∀ (i : NodeId) (above : SchemaPath) (d : Draft),
    Ends (repath fuel i above) d
      (fun _ d' => d.RepathedBelow i d' ∧ ∀ j, d.Below j i → d.nodes.isFrozen j.index = false)
      fun f d' => d.RepathedBelow i d' ∧ d.Stops fuel i f := by
  induction fuel with
  | zero =>
    intro i above d
    exact ⟨.refl d i, .endless .refl fun h => by cases h⟩
  | succ fuel ih =>
    intro i above d
    unfold repath
    generalize hg : (fun r : NodeDraft =>
      { r with facts := { r.facts with path := above.child r.name } }) = g
    rw [ends_bind, ends_editNode_any]
    split
    · next hfrozen => exact ⟨.refl d i, .frozen .refl hfrozen⟩
    · next hopen =>
      have hopen : d.nodes.isFrozen i.index = false := by simpa using hopen
      have hself : d.RepathedBelow i (d.mapNode i g) := hg ▸ .self hopen fun r => above.child r.name
      rw [ends_bind, ends_get]
      generalize d.mapNode i g = d₁ at *
      dsimp only
      rw [show (d₁.node i).children = d.childrenOf (.node i) from hself.repathed.childrenOf (.node i)]
      -- the subtrees below it, one after the other
      refine (ends_forM (I := fun pre d' => d.RepathedBelow i d' ∧
        ∀ x ∈ pre, ∀ j, d.Below j x → d.nodes.isFrozen j.index = false)
        (d.childrenOf (.node i)) ⟨hself, fun x hx => absurd hx List.not_mem_nil⟩ ?_).mono
        ?_ fun _ _ hE => hE
      · rintro pre x post d' hl ⟨hre, hpre⟩
        have hx : x ∈ d.childrenOf (.node i) := by rw [hl]; simp
        have hbelow : d.Below x i := .single hx
        refine (ih x _ d').mono ?_ fun f d'' h => ⟨hre.trans hbelow h.1, h.2.of_child hre hx⟩
        rintro - d'' ⟨hre', hopen'⟩
        refine ⟨hre.trans hbelow hre', fun y hy j hj => ?_⟩
        rcases List.mem_append.1 hy with hy | hy
        · exact hpre y hy j hj
        · rw [List.mem_singleton.1 hy] at hj
          exact (hre.isFrozen _).symm.trans (hopen' j (hre.below_iff.2 hj))
      · rintro - d' ⟨hre, hall⟩
        refine ⟨hre, fun j hj => ?_⟩
        rcases hj.cases_tail with rfl | ⟨x, hjx, hx⟩
        · exact hopen
        · exact hall x hx j hjx

/-! ## Placing -/

/-- `c` is listed at `s`, and then placing it stops with the fault `f`. -/
structure HalfPlaced (d : Draft) (s : Site) (c : NodeId) (f : Fault) (d' : Draft) : Prop where
  size : d'.nodes.size = d.nodes.size
  childrenOf : ∀ t, d'.childrenOf t = (d.mapChildren s (· ++ [c])).childrenOf t
  parent : ∀ i, i ≠ c → (d'.node i).parent = (d.node i).parent
  /-- Paths are other ones only at open nodes at or below `c`. -/
  path : ∀ i, d.nodes.isFrozen i.index = true ∨ ¬ d'.Below i c → (d'.node i).path = (d.node i).path
  pathOf : ∀ t, (∀ i, t ≠ .node i) → d'.pathOf t = d.pathOf t
  isFrozen : ∀ k, d'.nodes.isFrozen k = d.nodes.isFrozen k
  stops : d'.Stops d.nodes.size c f

theorem pathOf_mapChildren (t : Site) (g : List NodeId → List NodeId) :
    (d.mapChildren s g).pathOf t = d.pathOf t := by
  cases t with
  | module i => rfl
  | node i => show ((d.mapChildren s g).node i).path = _; rw [node_mapChildren]; rfl
  | grouping i =>
    show ((d.mapChildren s g).grouping i).facts.path = _
    rw [grouping_mapChildren]; rfl
  | augment i =>
    show ((d.mapChildren s g).augment i).facts.target = _
    rw [augment_mapChildren]; rfl

theorem isFrozen_placed (k : Nat) : (d.placed s c).nodes.isFrozen k = d.nodes.isFrozen k := by
  rw [Shelf.isFrozen, placed, snapshot?_mapNode, snapshot?_mapChildren, Shelf.isFrozen]

theorem path_placed (i : NodeId) : ((d.placed s c).node i).path = (d.node i).path := by
  unfold placed
  rw [node_mapNode, node_mapChildren]
  split <;> rfl

theorem pathOf_placed (t : Site) : (d.placed s c).pathOf t = d.pathOf t := by
  cases t with
  | node i => exact path_placed i
  | module i => rfl
  | grouping i => exact pathOf_mapChildren (.grouping i) _
  | augment i => exact pathOf_mapChildren (.augment i) _

theorem RepathedBelow.pathOf (h : d.RepathedBelow i d') (ht : ∀ j, t ≠ .node j) :
    d'.pathOf t = d.pathOf t := by
  cases t with
  | module j => rfl
  | node j => exact absurd rfl (ht j)
  | grouping j => exact congrArg (fun r => r.facts.path) (h.repathed.grouping j)
  | augment j => exact congrArg (fun r => r.facts.target) (h.repathed.augment j)

theorem Stops.repathed {fuel : Nat} (h : d.RepathedBelow i d') (hstops : d.Stops fuel c f) :
    d'.Stops fuel c f := by
  cases hstops with
  | frozen hj hfrozen => exact .frozen (h.below_iff.2 hj) ((h.isFrozen _).trans hfrozen)
  | endless hj hends =>
    refine .endless (h.below_iff.2 hj) ?_
    have heq : (fun y x => y ∈ d'.childrenOf (.node x)) = fun y x => y ∈ d.childrenOf (.node x) := by
      funext y x
      rw [h.repathed.childrenOf]
    rwa [heq]

/-- A node may be placed at a site that is not frozen if nothing at or below it is frozen. -/
theorem ends_place_any (s : Site) (c : NodeId) (d : Draft) :
    Ends (place s c) d
      (fun _ d' => d.isFrozenAt s = false ∧ (d.placed s c).RepathedBelow c d' ∧
        ∀ j, (d.placed s c).Below j c → d.nodes.isFrozen j.index = false)
      fun f d' => d.isFrozenAt s = true ∧ f = .internal (.alreadyFrozen s.render) ∧ d' = d ∨
        d.isFrozenAt s = false ∧ d.HalfPlaced s c f d' := by
  have hsize : (d.mapChildren s (· ++ [c])).nodes.size = d.nodes.size := (sizes_mapChildren s _).1
  unfold place
  rw [ends_bind, ends_get, ends_bind, ends_editChildren_any]
  split
  · next hs => exact .inl ⟨hs, rfl, rfl⟩
  · next hs =>
    have hs : d.isFrozenAt s = false := by simpa using hs
    rw [ends_bind, ends_editNode_any, isFrozen_mapChildren]
    split
    · next hc =>
      refine .inr ⟨hs, hsize, fun _ => rfl, fun i _ => ?_, fun i _ => ?_,
        fun t _ => pathOf_mapChildren t _, isFrozen_mapChildren s _, ?_⟩
      · rw [node_mapChildren]
      · rw [node_mapChildren]
        rfl
      · exact .frozen .refl ((isFrozen_mapChildren s _ _).trans hc)
    · next hc =>
      have hsize' : (d.placed s c).nodes.size = d.nodes.size := (Shelf.size_update _ _ _).trans hsize
      rw [ends_bind, ends_get]
      change Ends (repath (d.placed s c).nodes.size c (d.pathOf s)) (d.placed s c) _ _
      rw [hsize']
      refine (ends_repath_any d.nodes.size c (d.pathOf s) (d.placed s c)).mono ?_ ?_
      · rintro - d' ⟨hre, hopen⟩
        exact ⟨hs, hre, fun j hj => (isFrozen_placed _).symm.trans (hopen j hj)⟩
      · rintro f d' ⟨hre, hstops⟩
        refine .inr ⟨hs, hre.repathed.size.trans hsize', fun t => ?_, fun i hi => ?_, fun i hi => ?_,
          fun t ht => ?_, fun k => (hre.isFrozen k).trans (isFrozen_placed k), hstops.repathed hre⟩
        · rw [hre.repathed.childrenOf, childrenOf_placed]
        · rw [hre.repathed.parent]
          unfold placed
          rw [node_mapNode_of_ne (Ne.symm hi), node_mapChildren]
        · rw [hre.node i ?_, path_placed]
          exact hi.imp (isFrozen_placed _).trans fun h hbelow => h (hre.below_iff.2 hbelow)
        · rw [hre.pathOf ht, pathOf_placed]

/-! ## Drafts with more records -/

/-- Paths are given to nodes that are new. -/
theorem Extends.repathedBelow (h : d.Extends d₁) (hre : d₁.RepathedBelow c d₂)
    (hnew : ∀ i, i.index < d.nodes.size → ¬ d₁.Below i c) : d.Extends d₂ where
  nodes_le := hre.repathed.size ▸ h.nodes_le
  uses_le := hre.repathed.uses ▸ h.uses_le
  augments_le := hre.repathed.augments ▸ h.augments_le
  groupings_size := hre.repathed.groupings ▸ h.groupings_size
  modules_size := hre.repathed.modules ▸ h.modules_size
  node i hi := (hre.node i (.inr (hnew i hi))).trans (h.node i hi)
  usesOf u hu := (hre.repathed.usesOf u).trans (h.usesOf u hu)
  augment a ha := (hre.repathed.augment a).trans (h.augment a ha)
  grouping g := (hre.repathed.grouping g).trans (h.grouping g)
  module m := (hre.repathed.module m).trans (h.module m)

end Draft

end YangSchema
