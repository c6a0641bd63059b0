import YangSchema.Proofs.Schema.Frozen

/-!
# What stands in a frozen module

The nodes of a frozen module are the snapshots of the nodes that stand below it in the draft, each with
the path of its place, if every shorthand case there holds one node (`Draft.Follows.mem_topLevel_iff`).
-/

namespace YangSchema

open Draft

variable {d₀ d : Draft} {i j : NodeId} {x y z : Site} {n t : Node} {p : List QName}

/-! ## Trees -/

theorem Node.preorderAll_eq_flatMap (l : List Node) : Node.preorderAll l = l.flatMap Node.preorder := by
  induction l with
  | nil => simp [Node.preorderAll]
  | cons n l ih => simp [Node.preorderAll, ih]

theorem Node.mem_preorder : t ∈ n.preorder ↔ t = n ∨ ∃ c ∈ n.children, t ∈ c.preorder := by
  cases n
  simp [Node.preorder, Node.preorderAll_eq_flatMap]

theorem Node.sizeOf_lt_of_mem_children (h : t ∈ n.children) : sizeOf t < sizeOf n := by
  cases n with
  | mk facts config children groupings uses augmentations origin =>
    have hlt : sizeOf t < sizeOf children := List.sizeOf_lt_of_mem h
    rw [Node.mk.sizeOf_spec]
    omega

theorem Node.mem_preorder_of_child {c : Node} (ht : t ∈ n.preorder) (hc : c ∈ t.children) :
    c ∈ n.preorder := by
  induction hn : sizeOf n using Nat.strong_induction_on generalizing n with
  | _ size ih =>
    subst hn
    rcases Node.mem_preorder.1 ht with rfl | ⟨m, hm, ht⟩
    · exact Node.mem_preorder.2 (.inr ⟨c, hc, Node.mem_preorder.2 (.inl rfl)⟩)
    · exact Node.mem_preorder.2 (.inr ⟨m, hm, ih _ (Node.sizeOf_lt_of_mem_children hm) ht rfl⟩)

/-- The top level holds the same nodes in another order. -/
theorem Draft.topLevel_perm (r : ModuleDraft) (nodes : List Node) (groupings : List Grouping)
    (augmentations : List Augmentation) (uses : List Uses) :
    (snapshotModule r nodes groupings augmentations uses).topLevel.Perm nodes := by
  unfold Module.topLevel snapshotModule
  dsimp only
  induction nodes with
  | nil => exact .refl _
  | cons n nodes ih =>
    refine List.Perm.trans ?_ (ih.cons n)
    simp only [List.filter_cons]
    cases n.kind with
    | rpc => exact List.perm_middle.append_right _
    | notification => exact List.perm_middle
    | _ => exact .refl _

theorem Draft.mem_topLevel {r : ModuleDraft} {nodes : List Node} {groupings : List Grouping}
    {augmentations : List Augmentation} {uses : List Uses} :
    n ∈ (snapshotModule r nodes groupings augmentations uses).topLevel ↔ n ∈ nodes :=
  (topLevel_perm r nodes groupings augmentations uses).mem_iff

namespace Draft

theorem NodeSnapshot.path (h : d.NodeSnapshot i n) : n.path = (d.node i).path := by
  cases hk : (d.node i).kind.isShorthandCase with
  | false => exact congrArg NodeFacts.path (h.of_not_shorthand hk).1
  | true =>
    obtain ⟨_, _, child, _, -, -, rfl⟩ := h.of_shorthand hk
    rfl

/-- The children of a snapshot are snapshots of children. -/
theorem NodeSnapshot.exists_child (h : d.NodeSnapshot i n) (ht : t ∈ n.children) :
    ∃ c ∈ d.childrenOf (.node i), d.NodeSnapshot c t := by
  cases hk : (d.node i).kind.isShorthandCase with
  | false => exact exists_of_forall₂_right (h.of_not_shorthand hk).2.1 ht
  | true =>
    obtain ⟨c, rest, child, _, hchildren, hchild, rfl⟩ := h.of_shorthand hk
    obtain rfl := List.mem_singleton.1 ht
    refine ⟨c, ?_, hchild⟩
    show c ∈ (d.node i).children
    rw [hchildren]
    exact List.mem_cons_self

/-- All children have snapshots there, but in a shorthand case only the first one. -/
theorem NodeSnapshot.exists_of_mem (h : d.NodeSnapshot i n)
    (hsingle : (d.node i).kind = .caseNode true → ∃ c, d.childrenOf (.node i) = [c])
    (hj : j ∈ d.childrenOf (.node i)) : ∃ t ∈ n.children, d.NodeSnapshot j t := by
  cases hk : (d.node i).kind.isShorthandCase with
  | false => exact exists_of_forall₂_right (h.of_not_shorthand hk).2.1.flip hj
  | true =>
    obtain ⟨c, rest, child, _, hchildren, hchild, rfl⟩ := h.of_shorthand hk
    obtain ⟨c', hc'⟩ := hsingle (NodeKind.isShorthandCase_iff.1 hk)
    have hcc : c :: rest = [c'] := hchildren.symm.trans hc'
    cases hcc
    rw [hc'] at hj
    obtain rfl := List.mem_singleton.1 hj
    exact ⟨child, List.mem_singleton_self child, hchild⟩

/-- What is in a snapshot is the snapshot of something below. -/
theorem NodeSnapshot.exists_leads (h : d.NodeSnapshot i n) (ht : t ∈ n.preorder) :
    ∃ p j, d.Leads (.node i) p (.node j) ∧ d.NodeSnapshot j t := by
  induction hn : sizeOf n using Nat.strong_induction_on generalizing i n with
  | _ size ih =>
    subst hn
    rcases Node.mem_preorder.1 ht with rfl | ⟨m, hm, ht⟩
    · exact ⟨[], i, .nil _, h⟩
    · obtain ⟨c, hc, hcm⟩ := h.exists_child hm
      obtain ⟨p, j, hp, hj⟩ := ih _ (Node.sizeOf_lt_of_mem_children hm) hcm ht rfl
      exact ⟨_, j, .cons hc hp, hj⟩

/-- The nodes of a frozen module are snapshots of what stands at its top. -/
theorem ModuleSnapshot.exists_top {k : ModuleId} {m : Module} (h : d.ModuleSnapshot k m)
    (hn : n ∈ m.topLevel) : ∃ c ∈ d.childrenOf (.module k), d.NodeSnapshot c n := by
  obtain ⟨nodes, groupings, augmentations, uses, hnodes, -, -, -, rfl⟩ := h
  exact exists_of_forall₂_right hnodes (mem_topLevel.1 hn)

/-- All that is below has its snapshot there. -/
theorem NodeSnapshot.exists_mem_preorder (h : d.NodeSnapshot i n) (hp : d.Leads (.node i) p (.node j))
    (hsingle : ∀ c, d.Under (.node c) (.node i) → (d.node c).kind = .caseNode true →
      ∃ b, d.childrenOf (.node c) = [b]) (hd : d.Sound) :
    ∃ t ∈ n.preorder, d.NodeSnapshot j t := by
  generalize hx : Site.node i = x at hp
  generalize hy : Site.node j = y at hp
  induction hp generalizing i n with
  | nil =>
    cases hx.trans hy.symm
    exact ⟨n, Node.mem_preorder.2 (.inl rfl), h⟩
  | cons hc _ ih =>
    subst hx
    obtain ⟨m, hm, hcm⟩ := h.exists_of_mem (hsingle i (.refl _)) hc
    have hunder := hd.under_of_mem (.refl _) hc
    obtain ⟨t, ht, hjt⟩ := ih hcm (fun b hb => hsingle b (hb.trans hunder)) rfl hy
    exact ⟨t, Node.mem_preorder.2 (.inr ⟨m, hm, ht⟩), hjt⟩

/-- Below a declared site a node has the path of its place. -/
theorem Follows.pathOf_eq (h : d₀.Follows d) (hx : d₀.HasSite x) (hy : d.Under y x)
    (hp : d.Leads y p z) : d.pathOf z = (d.pathOf y).down p := by
  induction hp with
  | nil s =>
    unfold SchemaPath.down
    rw [List.append_nil]
  | @cons s z c p hc _ ih =>
    rw [ih (h.sound.under_of_mem hy hc), ← SchemaPath.down_child]
    exact congrArg (SchemaPath.down · p) (h.regular.paths x hx s hy c hc)

end Draft

/-! ## Modules -/

/-- A frozen module holds a node of the keyword at the path exactly if the draft shows one. -/
theorem Draft.Follows.mem_topLevel_iff (h : d₀.Follows d) {i : ModuleId} (hi : d₀.HasSite (.module i))
    (hsingle : ∀ c, d.Under (.node c) (.module i) → (d.node c).kind = .caseNode true →
      ∃ b, d.childrenOf (.node c) = [b]) {m : Module} (hm : d.ModuleSnapshot i m)
    (path : SchemaPath) (k : String) :
    (∃ t ∈ m.topLevel.flatMap Node.preorder, t.path = path ∧ t.kind.keyword = k) ↔
      path.absolute = true ∧ ∃ top, d.Shows false (.module i) path.steps top k := by
  obtain ⟨nodes, groupings, augmentations, uses, hnodes, -, -, -, rfl⟩ := hm
  have hd := h.sound
  -- the path of a node says how it is reached
  have hpath : ∀ {p j t}, d.Leads (.module i) p (.node j) → d.NodeSnapshot j t → t.path = ⟨true, p⟩ := by
    intro p j t hp ht
    rw [ht.path]
    exact h.pathOf_eq hi (.refl _) hp
  constructor
  · rintro ⟨t, ht, rfl, rfl⟩
    obtain ⟨n, hn, ht⟩ := List.mem_flatMap.1 ht
    obtain ⟨c, hc, hcn⟩ := exists_of_forall₂_right hnodes (mem_topLevel.1 hn)
    obtain ⟨p, j, hp, hj⟩ := hcn.exists_leads ht
    have hleads : d.Leads (.module i) _ (.node j) := .cons hc hp
    rw [hpath hleads hj, hj.kind]
    exact ⟨rfl, (reaches_false.2 hleads).shows (List.cons_ne_nil _ _)⟩
  · rintro ⟨habs, top, hp⟩
    cases path with
    | mk absolute p =>
      obtain rfl : absolute = true := habs
      obtain ⟨j, hj, rfl⟩ := hp.exists_reaches
      have hleads := hj.leads
      cases hj with
      | @cons _ _ q c p' hc hp' =>
        obtain ⟨n, hn, hcn⟩ := exists_of_forall₂_right hnodes.flip hc.mem
        replace hcn : d.NodeSnapshot c n := hcn
        have hunder := hd.under_of_mem (.refl _) hc.mem
        obtain ⟨t, ht, hjt⟩ := hcn.exists_mem_preorder hp'.leads
          (fun b hb => hsingle b (hb.trans hunder)) hd
        refine ⟨t, List.mem_flatMap.2 ⟨n, mem_topLevel.2 hn, ht⟩, hpath hleads hjt, ?_⟩
        rw [hjt.kind]

end YangSchema
