import YangSchema.Proofs.Memoization

/-!
# Shorthand cases and the nodes in them

A shorthand case says what the node in it says (`Node.Wraps`), and so do the cases that it counts as
a copy of: the origins of the case are made, one by one, around the origins of the node
(`Node.origins_synthesize`).  This holds of every shorthand case, whenever and from wherever it
is frozen, and for good (`Draft.freezing_shorthand`).
-/

namespace YangSchema

namespace Node

/-- `wrapper` is a shorthand case around `child`: it holds it and nothing else, and apart from the path it
says what `child` says. -/
structure Wraps (wrapper child : Node) : Prop where
  kind : wrapper.kind = .caseNode true
  children : wrapper.children = [child]
  name : wrapper.name = child.name
  docs : wrapper.facts.docs = child.facts.docs
  config : wrapper.config = child.config
  constraints : wrapper.facts.constraints = child.facts.constraints
  byUses : wrapper.facts.byUses = child.facts.byUses
  augmenting : wrapper.facts.augmenting = child.facts.augmenting

/-- `wrapper` is a shorthand case around `child` and has its path. -/
def WrapsInPlace (wrapper child : Node) : Prop := wrapper.Wraps child ∧ wrapper.path = child.path

theorem wraps_synthesize (child : Node) (path : SchemaPath) (augmentations : List Augmentation)
    (unknown : List UnknownStatement) : (child.synthesize path augmentations unknown).Wraps child :=
  ⟨rfl, rfl, rfl, rfl, rfl, rfl, rfl, rfl⟩

theorem wrapsInPlace_wrap (child : Node) : child.wrap.WrapsInPlace child := by
  rw [wrap_eq_synthesize]
  exact ⟨wraps_synthesize child _ _ _, rfl⟩

theorem wrapsInPlace_map_wrap (l : List Node) : List.Forall₂ WrapsInPlace (l.map wrap) l :=
  List.forall₂_map_left_iff.2 (List.forall₂_same.2 fun o _ => wrapsInPlace_wrap o)

/-- The origins of the case around an origin are the cases around its origins. -/
theorem wrapsInPlace_origins_wrap (child : Node) :
    List.Forall₂ WrapsInPlace child.wrap.origins child.origins := by
  rw [origins_wrap]
  exact wrapsInPlace_map_wrap child.origins

theorem origins_eq (n : Node) : n.origins = (n.origin.map fun o => o :: o.origins).getD [] := by
  cases n with
  | mk facts config children groupings uses augmentations origin => cases origin <;> simp [origins]

theorem origins_synthesize (child : Node) (path : SchemaPath) (augmentations : List Augmentation)
    (unknown : List UnknownStatement) :
    (child.synthesize path augmentations unknown).origins = child.origins.map wrap := by
  rw [origins_eq, origins_eq child]
  show ((child.origin.map wrap).map fun o => o :: o.origins).getD [] = _
  cases child.origin with
  | none => rfl
  | some o => simp [origins_wrap]

end Node

namespace Draft

open Edit

variable {d d₁ : Draft} {i c : NodeId} {v : Node} {fuel : Nat}

theorem Lasts.node (h : d.Lasts d₁) (hv : d.nodes.snapshot? i.index = some v) :
    d₁.nodes.snapshot? i.index = some v :=
  (ShelfPlace.node i).snapshot?_of_taken? <| h.taken _ _ <| congrArg (Option.map Snapshot.node) hv

theorem ends_freezeNodeUpTo (fuel : Nat) (i : NodeId) (d : Draft) : Ends (freezeNodeUpTo fuel i) d
    (fun v d' => d.Lasts d' ∧ (d.HasItem (.site (.node i)) → d'.nodes.snapshot? i.index = some v))
    fun _ d' => d.Lasts d' := by
  cases fuel with
  | zero => exact .refl d
  | succ fuel =>
    rw [freezeNodeUpTo_succ]
    exact (recalling_recallOr _ ((freezeLasts fuel).makeNode i)).ends d

/-- A node that is its own first child is never frozen. -/
theorem not_freezes_firstOfItself {rest : List NodeId} (hchildren : (d.node i).children = i :: rest)
    (hnone : d.nodes.snapshot? i.index = none) (fuel : Nat) :
    Ends (freezeNodeUpTo fuel i) d (fun _ _ => False) fun _ _ => True := by
  induction fuel with
  | zero => trivial
  | succ fuel ih =>
    rw [freezeNodeUpTo_succ, recallOr, ends_bind, ends_get]
    split
    · next v hv => cases hnone.symm.trans hv
    · rw [ends_bind, makeNode, ends_bind, ends_get, ends_bind, hchildren, List.mapM_cons, ends_bind]
      exact ih.mono (fun _ _ hfalse => hfalse.elim) fun _ _ h => h

/-- Nodes that are frozen in turn all have their snapshots in the end. -/
theorem ends_mapM_freezeNodeUpTo (fuel : Nat) (l : List NodeId) (d : Draft) :
    Ends (l.mapM (freezeNodeUpTo fuel)) d (fun vs d' => d.Lasts d' ∧ List.Forall₂ (fun c v =>
      d.HasItem (.site (.node c)) → d'.nodes.snapshot? c.index = some v) l vs) fun _ d' => d.Lasts d' := by
  induction l generalizing d with
  | nil => exact ⟨.refl d, .nil⟩
  | cons c l ih =>
    rw [List.mapM_cons, ends_bind]
    refine (ends_freezeNodeUpTo fuel c d).mono ?_ fun _ _ h => h
    rintro v d₁ ⟨h₁, hv⟩
    rw [ends_bind]
    refine (ih d₁).mono ?_ fun _ _ h => h₁.trans h
    rintro vs d₂ ⟨h₂, hvs⟩
    exact ⟨h₁.trans h₂, .cons (fun hc => h₂.node (hv hc))
      (hvs.imp fun _ _ h hc => h (h₁.hasItem _ hc))⟩

/-- A shorthand case is made around the snapshot of its first child. -/
theorem ends_makeNode_shorthand (hkind : (d.node i).kind.isShorthandCase) :
    Ends (makeNode fuel i) d (fun v d' => d.Lasts d' ∧ ∃ c rest child augmentations,
      (d.node i).children = c :: rest ∧
      (d.HasItem (.site (.node c)) → d'.nodes.snapshot? c.index = some child) ∧
      v = child.synthesize (d.node i).path augmentations (d.node i).facts.unknown)
      fun _ d' => d.Lasts d' := by
  rw [makeNode, ends_bind, ends_get, ends_bind]
  refine (ends_mapM_freezeNodeUpTo fuel _ d).mono ?_ fun _ _ h => h
  rintro children d₁ ⟨h₁, hchildren⟩
  rw [ends_bind]
  refine (Lasting.mapM (freezeLasts fuel).augment _ d₁).mono (fun as d₂ h₂ => ?_) fun _ _ h => h₁.trans h
  rw [if_pos hkind]
  generalize (d.node i).children = l at hchildren
  cases hchildren with
  | nil => exact h₁.trans h₂
  | @cons c child rest _ hc =>
    exact ⟨h₁.trans h₂, c, rest, child, as, rfl, fun hin => h₂.node (hc hin), rfl⟩

/-- A shorthand case of which there is no snapshot is frozen around that of its first child. -/
theorem ends_freezeNodeUpTo_shorthand (fuel : Nat) (hkind : (d.node i).kind.isShorthandCase)
    (hnone : d.nodes.snapshot? i.index = none) :
    Ends (freezeNodeUpTo fuel i) d (fun v d' => ∃ c rest child augmentations,
      (d.node i).children = c :: rest ∧
      (d.HasItem (.site (.node c)) → d'.nodes.snapshot? c.index = some child) ∧
      v = child.synthesize (d.node i).path augmentations (d.node i).facts.unknown)
      fun _ _ => True := by
  by_cases hself : ∃ rest, (d.node i).children = i :: rest
  · obtain ⟨rest, hchildren⟩ := hself
    exact (not_freezes_firstOfItself hchildren hnone fuel).mono (fun _ _ h => h.elim) fun _ _ h => h
  cases fuel with
  | zero => trivial
  | succ fuel =>
    rw [freezeNodeUpTo_succ, recallOr, ends_bind, ends_get]
    split
    · next v hv => cases hnone.symm.trans hv
    · rw [ends_bind]
      refine (ends_makeNode_shorthand hkind).mono ?_ fun _ _ _ => trivial
      rintro v d₁ ⟨-, c, rest, child, as, hchildren, hc, hv⟩
      -- the case is put beside the snapshot of its child
      have hne : Item.site (.node c) ≠ (Snapshot.node v).item i.index := by
        intro heq
        cases heq
        exact hself ⟨rest, hchildren⟩
      refine ⟨c, rest, child, as, hchildren, fun hin => ?_, hv⟩
      refine (ShelfPlace.node c).snapshot?_of_taken? ((taken?_store_of_ne hne).trans ?_)
      exact congrArg (Option.map Snapshot.node) (hc hin)

/-- A node of a draft can be a shorthand case only if it is there. -/
theorem hasItem_of_isShorthandCase (hkind : (d.node i).kind.isShorthandCase) :
    d.HasItem (.site (.node i)) := by
  refine Nat.lt_of_not_le fun hle => ?_
  rw [node_of_size_le hle] at hkind
  cases hkind

/-- The shorthand case around an origin stands at its place, and the origins of the case are the shorthand
cases around the origins of the origin, each at the place of the node in it.  And whenever a shorthand case
is frozen, with however many steps left, it comes to a case around the snapshot of its first child, at its
own place, whose origins are the shorthand cases around the origins of the child; this snapshot stays,
whatever is done with the draft later. -/
theorem freezing_shorthand :
    (∀ c : Node, c.wrap.WrapsInPlace c ∧ List.Forall₂ Node.WrapsInPlace c.wrap.origins c.origins) ∧
    ∀ (d d₁ : Draft) (fuel : Nat) (i : NodeId) (v : Node), (d.node i).kind.isShorthandCase →
      d.nodes.snapshot? i.index = none → (freezeNodeUpTo fuel i).perform d = (.ok v, d₁) →
      ∃ c rest child, (d.node i).children = c :: rest ∧
        (d.HasItem (.site (.node c)) → d₁.nodes.snapshot? c.index = some child) ∧
        v.Wraps child ∧ v.path = (d.node i).path ∧
        List.Forall₂ Node.WrapsInPlace v.origins child.origins ∧
        ∀ ops, (d₁.after ops).nodes.snapshot? i.index = some v := by
  refine ⟨fun c => ⟨c.wrapsInPlace_wrap, c.wrapsInPlace_origins_wrap⟩,
    fun d d₁ fuel i v hkind hnone hrun => ?_⟩
  obtain ⟨c, rest, child, as, hchildren, hc, rfl⟩ :=
    (ends_freezeNodeUpTo_shorthand fuel hkind hnone).of_ok hrun
  have htaken := ((ends_freezeNodeUpTo fuel i d).of_ok hrun).2 (hasItem_of_isShorthandCase hkind)
  refine ⟨c, rest, child, hchildren, hc, Node.wraps_synthesize .., rfl, ?_,
    fun ops => (lasts_after d₁ ops).node htaken⟩
  rw [Node.origins_synthesize]
  exact Node.wrapsInPlace_map_wrap _

/-! ## An example -/

/-- A leaf at the top of a module, and a choice with a copy of it. -/
def copyInChoice : Draft where
  nodes := ⟨#[
    { record := { NodeDraft.blank .leaf ⟨default, "x"⟩ with parent := some (.module ⟨0⟩) } },
    { record := { NodeDraft.blank (.choice none) ⟨default, "c"⟩ with
        children := [⟨2⟩], parent := some (.module ⟨0⟩) } },
    { record := { NodeDraft.blank (.caseNode true) ⟨default, "x"⟩ with
        children := [⟨3⟩], parent := some (.node ⟨1⟩) } },
    { record := { NodeDraft.blank .leaf ⟨default, "x"⟩ with
        config := some false, origin := some ⟨0⟩, parent := some (.node ⟨2⟩) } }]⟩
  modules := ⟨#[{ record := { facts := default, children := [⟨0⟩, ⟨1⟩] } }]⟩

/-- The case counts as a copy of a case around the leaf, with the `config` that each leaf has. -/
theorem freezing_copyInChoice : ∃ v d₁ child,
    (freezeNodeUpTo 5 ⟨2⟩).perform copyInChoice = (.ok v, d₁) ∧
    d₁.nodes.snapshot? 3 = some child ∧ v.Wraps child ∧ v.config = false ∧
    v.origin.map Node.config = some true ∧ List.Forall₂ Node.WrapsInPlace v.origins child.origins ∧
    (d₁.after [.editNode ⟨3⟩ fun r => { r with config := none }]).nodes.snapshot? 2 = some v := by
  obtain ⟨c, rest, child, hchildren, hc, hwraps, -, horigins, hstays⟩ :=
    freezing_shorthand.2 copyInChoice _ 5 ⟨2⟩ _ rfl rfl rfl
  cases hchildren
  exact ⟨_, _, child, rfl, hc (by decide), hwraps, rfl, rfl, horigins, hstays _⟩

end Draft

end YangSchema
