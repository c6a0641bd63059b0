import YangSchema.Proofs.Schema.Trees

/-!
# Places in a tree

A place says which of some nodes a node is, or which child of it, and so on down (`Node.at?`); two nodes
that say the same are at different places.  Names lead to a place, at every level to the first node of
the name (`Node.place?`), and looking for a path is to look at the place that its steps lead to
(`Module.findNode_eq`).  If every path goes on from the one above, the path of a node leads to its place
exactly if the way there is straight: each node on it has the name that its path ends with, and is the
first of its siblings with this name (`Node.PathsBelow.exists_steps`).
-/

namespace YangSchema

theorem SchemaPath.last?_child (p : SchemaPath) (q : QName) : (p.child q).last? = some q :=
  List.getLast?_concat

namespace Node

/-- The node at a place below some nodes. -/
def at? : List Node → List Nat → Option Node
  | _, [] => none
  | ns, [i] => ns[i]?
  | ns, i :: j :: is => ns[i]?.bind fun n => at? n.children (j :: is)

/-- The place that names lead to, by the first node of the name at every level. -/
def place? : List Node → List QName → Option (List Nat)
  | _, [] => some []
  | ns, q :: qs => do
    let i ← ns.findIdx? (·.name == q)
    let n ← ns[i]?
    return i :: (← place? n.children qs)

/-- The node has the name that its path ends with. -/
def NamedByPath (n : Node) : Prop := n.path.last? = some n.name

/-- The node is the `i`-th one, and none before it has its name. -/
def First (ns : List Node) (i : Nat) (n : Node) : Prop :=
  ns[i]? = some n ∧ ∀ j < i, ∀ n', ns[j]? = some n' → n'.name ≠ n.name

/-- On the way to the place each node has the name that its path ends with, and no sibling before it has
this name. -/
def Straight (ns : List Node) (is : List Nat) : Prop :=
  ∀ pre i post n, is = pre ++ i :: post → at? ns (pre ++ [i]) = some n →
    n.NamedByPath ∧ ∀ j < i, ∀ n', at? ns (pre ++ [j]) = some n' → n'.name ≠ n.name

/-- All paths go on from the one above, those at the top from `p`. -/
structure PathsBelow (p : SchemaPath) (ns : List Node) : Prop where
  top : ∀ n ∈ ns, ∃ q, n.path = p.child q
  below : ∀ n ∈ preorderAll ns, ∀ c ∈ n.children, ∃ q, c.path = n.path.child q

/-- No two siblings have the same name. -/
structure DistinctBelow (ns : List Node) : Prop where
  top : (ns.map Node.name).Nodup
  below : ∀ n ∈ preorderAll ns, (n.children.map Node.name).Nodup

variable {ns : List Node} {n t : Node} {i j : Nat} {is : List Nat} {q : QName} {qs : List QName}

/-! ## One level -/

theorem at?_cons : at? ns (i :: is) = some t ↔
    ∃ n, ns[i]? = some n ∧ (is = [] ∧ t = n ∨ at? n.children is = some t) := by
  cases is with
  | nil => simp [at?, eq_comm]
  | cons j is => simp [at?, Option.bind_eq_some_iff]

/-- Below a node its place comes first. -/
theorem at?_cons_append (hn : ns[i]? = some n) : at? ns (i :: (is ++ [j])) = at? n.children (is ++ [j]) := by
  cases is with
  | nil => simp [at?, hn]
  | cons k is => simp [at?, hn]

theorem first_iff : First ns i n ↔
    ∃ hi : i < ns.length, ns[i] = n ∧ ∀ j (hj : j < i), ns[j].name ≠ n.name := by
  constructor
  · rintro ⟨hn, hfirst⟩
    obtain ⟨hi, rfl⟩ := List.getElem?_eq_some_iff.1 hn
    exact ⟨hi, rfl, fun j hj => hfirst j hj _ (List.getElem?_eq_getElem (Nat.lt_trans hj hi))⟩
  · rintro ⟨hi, rfl, hfirst⟩
    refine ⟨List.getElem?_eq_getElem hi, fun j hj n' hn' => ?_⟩
    obtain ⟨-, rfl⟩ := List.getElem?_eq_some_iff.1 hn'
    exact hfirst j hj

theorem findIdx?_name_eq_some : ns.findIdx? (·.name == q) = some i ↔ ∃ n, First ns i n ∧ n.name = q := by
  simp only [List.findIdx?_eq_some_iff_getElem, first_iff, beq_iff_eq]
  constructor
  · rintro ⟨hi, rfl, hfirst⟩
    exact ⟨_, ⟨hi, rfl, hfirst⟩, rfl⟩
  · rintro ⟨n, ⟨hi, rfl, hfirst⟩, rfl⟩
    exact ⟨hi, rfl, hfirst⟩

theorem find?_name_eq_some : ns.find? (·.name == q) = some n ↔ ∃ i, First ns i n ∧ n.name = q := by
  simp only [List.find?_eq_some_iff_getElem, first_iff, beq_iff_eq, Bool.not_eq_true', beq_eq_false_iff_ne]
  constructor
  · rintro ⟨rfl, i, hi, rfl, hfirst⟩
    exact ⟨i, ⟨hi, rfl, hfirst⟩, rfl⟩
  · rintro ⟨i, ⟨hi, rfl, hfirst⟩, rfl⟩
    exact ⟨rfl, i, hi, rfl, hfirst⟩

theorem place?_cons : place? ns (q :: qs) = some is ↔
    ∃ i n js, is = i :: js ∧ First ns i n ∧ n.name = q ∧ place? n.children qs = some js := by
  simp only [place?, Option.bind_eq_bind, Option.bind_eq_some_iff, findIdx?_name_eq_some, Option.pure_def,
    Option.some.injEq]
  constructor
  · rintro ⟨i, ⟨n, hfirst, hq⟩, n', hn', js, hjs, rfl⟩
    obtain rfl := Option.some.inj (hfirst.1.symm.trans hn')
    exact ⟨i, n, js, rfl, hfirst, hq, hjs⟩
  · rintro ⟨i, n, js, rfl, hfirst, hq, hjs⟩
    exact ⟨i, ⟨n, hfirst, hq⟩, n, hfirst.1, js, hjs, rfl⟩

/-! ## Looking for names -/

/-- Steps down lead to the node at the place that they lead to. -/
theorem descendant?_eq_some : n.descendant? qs = some t ↔
    ∃ is, place? n.children qs = some is ∧ (is = [] ∧ t = n ∨ at? n.children is = some t) := by
  induction qs generalizing n with
  | nil => simp [descendant?, place?, at?, eq_comm]
  | cons q qs ih =>
    rw [descendant?_cons]
    constructor
    · rintro ⟨c, hc, ht⟩
      obtain ⟨i, hfirst, hq⟩ := find?_name_eq_some.1 hc
      obtain ⟨is, his, hat⟩ := ih.1 ht
      exact ⟨i :: is, place?_cons.2 ⟨i, c, is, rfl, hfirst, hq, his⟩,
        .inr (at?_cons.2 ⟨c, hfirst.1, hat⟩)⟩
    · rintro ⟨is, his, hat⟩
      obtain ⟨i, c, js, rfl, hfirst, hq, hjs⟩ := place?_cons.1 his
      refine ⟨c, find?_name_eq_some.2 ⟨i, hfirst, hq⟩, ih.2 ⟨js, hjs, ?_⟩⟩
      obtain ⟨c', hc', hat⟩ := at?_cons.1 (hat.resolve_left fun h => by cases h.1)
      obtain rfl := Option.some.inj (hfirst.1.symm.trans hc')
      exact hat

end Node

open Node

/-- Looking for a path is to look at the place that its steps lead to. -/
theorem Module.findNode_eq (m : Module) (p : SchemaPath) :
    m.findNode p = (place? m.topLevel p.steps).bind (at? m.topLevel) := by
  refine Option.ext fun t => ?_
  rw [Option.bind_eq_some_iff]
  unfold Module.findNode
  cases p.steps with
  | nil => simp [place?, at?]
  | cons q qs =>
    rw [Option.bind_eq_some_iff]
    constructor
    · rintro ⟨n, hn, ht⟩
      obtain ⟨i, hfirst, hq⟩ := find?_name_eq_some.1 hn
      obtain ⟨is, his, hat⟩ := descendant?_eq_some.1 ht
      exact ⟨i :: is, place?_cons.2 ⟨i, n, is, rfl, hfirst, hq, his⟩, at?_cons.2 ⟨n, hfirst.1, hat⟩⟩
    · rintro ⟨is, his, hat⟩
      obtain ⟨i, n, js, rfl, hfirst, hq, hjs⟩ := place?_cons.1 his
      obtain ⟨n', hn', hat⟩ := at?_cons.1 hat
      obtain rfl := Option.some.inj (hfirst.1.symm.trans hn')
      exact ⟨n, find?_name_eq_some.2 ⟨i, hfirst, hq⟩, descendant?_eq_some.2 ⟨js, hjs, hat⟩⟩

namespace Node

variable {ns : List Node} {n t : Node} {i j : Nat} {is : List Nat} {p : SchemaPath}

/-! ## Straight ways -/

theorem straight_nil : Straight ns [] := by
  rintro pre i post n his
  exact absurd his.symm (by simp)

/-- A way is straight at its first node and from there on. -/
theorem straight_cons (hn : ns[i]? = some n) :
    Straight ns (i :: is) ↔ (n.NamedByPath ∧ First ns i n) ∧ Straight n.children is := by
  constructor
  · intro h
    obtain ⟨hname, hfirst⟩ := h [] i is n rfl hn
    refine ⟨⟨hname, hn, hfirst⟩, fun pre k post c hpost hc => ?_⟩
    obtain ⟨hname', hfirst'⟩ := h (i :: pre) k post c (by rw [hpost]; rfl) ((at?_cons_append hn).trans hc)
    exact ⟨hname', fun j hj c' hc' => hfirst' j hj c' ((at?_cons_append hn).trans hc')⟩
  · rintro ⟨⟨hname, -, hfirst⟩, hbelow⟩ pre k post c his hc
    cases pre with
    | nil =>
      cases his
      obtain rfl := Option.some.inj (hn.symm.trans hc)
      exact ⟨hname, hfirst⟩
    | cons i' pre =>
      obtain ⟨rfl, hpost⟩ := List.cons.inj his
      rw [List.cons_append, at?_cons_append hn] at hc
      obtain ⟨hname', hfirst'⟩ := hbelow pre k post c hpost hc
      refine ⟨hname', fun j hj c' hc' => hfirst' j hj c' ?_⟩
      rwa [List.cons_append, at?_cons_append hn] at hc'

theorem mem_preorderAll_of_child (hn : n ∈ ns) (ht : t ∈ preorderAll n.children) : t ∈ preorderAll ns := by
  rw [preorderAll_eq_flatMap] at ht ⊢
  obtain ⟨c, hc, ht⟩ := List.mem_flatMap.1 ht
  exact List.mem_flatMap.2 ⟨n, hn, mem_preorder.2 (.inr ⟨c, hc, ht⟩)⟩

theorem mem_preorderAll_of_mem (hn : n ∈ ns) : n ∈ preorderAll ns := by
  rw [preorderAll_eq_flatMap]
  exact List.mem_flatMap.2 ⟨n, hn, mem_preorder.2 (.inl rfl)⟩

theorem PathsBelow.children (h : PathsBelow p ns) (hn : n ∈ ns) : PathsBelow n.path n.children where
  top := h.below n (mem_preorderAll_of_mem hn)
  below c hc := h.below c (mem_preorderAll_of_child hn hc)

theorem DistinctBelow.children (h : DistinctBelow ns) (hn : n ∈ ns) : DistinctBelow n.children where
  top := h.below n (mem_preorderAll_of_mem hn)
  below c hc := h.below c (mem_preorderAll_of_child hn hc)

theorem mem_of_at? (h : at? ns is = some t) : t ∈ preorderAll ns := by
  induction is generalizing ns with
  | nil => cases h
  | cons i is ih =>
    obtain ⟨n, hn, ⟨-, rfl⟩ | hat⟩ := at?_cons.1 h
    · exact mem_preorderAll_of_mem (List.mem_of_getElem? hn)
    · exact mem_preorderAll_of_child (List.mem_of_getElem? hn) (ih hat)

/-- The path of a node leads to its place exactly if the way there is straight. -/
theorem PathsBelow.exists_steps (h : PathsBelow p ns) (ht : at? ns is = some t) :
    ∃ l, t.path = p.down l ∧ (place? ns l = some is ↔ Straight ns is) := by
  induction is generalizing p ns with
  | nil => cases ht
  | cons i is ih =>
    obtain ⟨n, hn, hat⟩ := at?_cons.1 ht
    have hmem := List.mem_of_getElem? hn
    obtain ⟨q, hq⟩ := h.top n hmem
    -- the rest of the way is straight if its names lead along it
    obtain ⟨l, hl, hiff⟩ : ∃ l, t.path = n.path.down l ∧
        (place? n.children l = some is ↔ Straight n.children is) := by
      rcases hat with ⟨rfl, rfl⟩ | hat
      · refine ⟨[], ?_, iff_of_true rfl straight_nil⟩
        unfold SchemaPath.down
        rw [List.append_nil]
      · exact ih (h.children hmem) hat
    have hname : n.NamedByPath ↔ n.name = q := by
      rw [NamedByPath, hq, SchemaPath.last?_child, Option.some.injEq, eq_comm]
    refine ⟨q :: l, by rw [hl, hq, SchemaPath.down_child], ?_⟩
    rw [straight_cons hn, place?_cons, hname, ← hiff]
    constructor
    · rintro ⟨i', n', js, his, hfirst, rfl, hjs⟩
      cases his
      obtain rfl := Option.some.inj (hn.symm.trans hfirst.1)
      exact ⟨⟨rfl, hfirst⟩, hjs⟩
    · rintro ⟨⟨rfl, hfirst⟩, hjs⟩
      exact ⟨i, n, is, rfl, hfirst, rfl, hjs⟩

/-- A path begins as the path of the node at the top ends. -/
theorem PathsBelow.exists_first (h : PathsBelow .root ns) (ht : at? ns is = some t) :
    ∃ n ∈ ns, t.path.first? = n.path.last? := by
  cases is with
  | nil => cases ht
  | cons i is =>
    obtain ⟨n, hn, hat⟩ := at?_cons.1 ht
    have hmem := List.mem_of_getElem? hn
    obtain ⟨q, hq⟩ := h.top n hmem
    refine ⟨n, hmem, ?_⟩
    rcases hat with ⟨-, rfl⟩ | hat
    · rw [hq]
      rfl
    · obtain ⟨l, hl, -⟩ := (h.children hmem).exists_steps hat
      rw [hl, hq]
      rfl

/-- Among siblings with different names every way is straight. -/
theorem DistinctBelow.straight (h : DistinctBelow ns) (hnames : ∀ n ∈ preorderAll ns, n.NamedByPath)
    (ht : at? ns is = some t) : Straight ns is := by
  induction is generalizing ns with
  | nil => exact straight_nil
  | cons i is ih =>
    obtain ⟨n, hn, hat⟩ := at?_cons.1 ht
    have hmem := List.mem_of_getElem? hn
    refine (straight_cons hn).2 ⟨⟨hnames n (mem_preorderAll_of_mem hmem), hn, fun j hj n' hn' heq => ?_⟩, ?_⟩
    · have hi : (ns.map Node.name)[i]? = some n.name := by rw [List.getElem?_map, hn]; rfl
      have hj' : (ns.map Node.name)[j]? = some n.name := by rw [List.getElem?_map, hn', ← heq]; rfl
      obtain ⟨hlt, -⟩ := List.getElem?_eq_some_iff.1 hj'
      exact Nat.ne_of_lt hj ((List.getElem?_inj hlt h.top).1 (hj'.trans hi.symm))
    · rcases hat with ⟨rfl, -⟩ | hat
      · exact straight_nil
      · exact ih (h.children hmem) (fun c hc => hnames c (mem_preorderAll_of_child hmem hc)) hat

end Node

end YangSchema
