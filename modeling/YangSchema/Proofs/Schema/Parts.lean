import YangSchema.Proofs.Draft.Freezing
import YangSchema.Proofs.Draft.Showing
import YangSchema.Schema.Context

/-!
# The definitions of a schema

A finished definition refers to what stands in it, to what was merged into it and to its origin
(`Part.parts`), and so everything that a schema holds is reached from its modules (`Schema.Has`).  A
property of nodes that snapshots have, and that shorthand cases made up for origins take over from
their nodes, all nodes of the schema have (`Draft.ModuleSnapshot.all`).
-/

namespace YangSchema

open Draft Relation

/-- A definition of a finished schema. -/
inductive Part where
  | node (n : Node)
  | grouping (g : Grouping)
  | uses (u : Uses)
  | augmentation (a : Augmentation)

namespace Part

/-- What a definition refers to: what stands in it, what was merged into it, and its origin. -/
def parts : Part → List Part
  | node n => n.children.map node ++ n.groupings.map grouping ++ n.uses.map uses ++
    n.augmentations.map augmentation ++ n.origin.toList.map node
  | grouping g => g.children.map node ++ g.groupings.map grouping ++ g.uses.map uses
  | uses u => u.augmentations.map augmentation
  | augmentation a => a.children.map node ++ a.uses.map uses ++ a.origin.toList.map augmentation

/-- `q` is reached from `p` along references. -/
def Reaches (p q : Part) : Prop := ReflTransGen (fun x y => y ∈ x.parts) p q

end Part

/-- What a module lists. -/
def Module.parts (m : Module) : List Part :=
  m.topLevel.map .node ++ m.groupings.map .grouping ++ m.uses.map .uses ++
    m.augmentations.map .augmentation

/-- The definition is reached from a module of the schema. -/
def Schema.Has (s : Schema) (p : Part) : Prop := ∃ m ∈ s.modules, ∃ q ∈ m.parts, q.Reaches p

/-! ## Properties of all nodes -/

/-- The property holds of all nodes that are reached. -/
def Part.All (P : Node → Prop) (p : Part) : Prop := ∀ n, p.Reaches (.node n) → P n

variable {P : Node → Prop}

namespace Part.All

variable {p q : Part} {n c o : Node}

theorem self (h : All P (.node n)) : P n := h n .refl

theorem part (h : p.All P) (hq : q ∈ p.parts) : q.All P := fun n hn => h n (.head hq hn)

theorem origin (h : All P (.node n)) (ho : n.origin = some o) : All P (.node o) := by
  refine h.part ?_
  simp only [parts, ho]
  exact List.mem_append_right _ List.mem_cons_self

theorem of_parts (hself : ∀ n, p = .node n → P n) (h : ∀ q ∈ p.parts, q.All P) : p.All P := by
  intro n hn
  rcases ReflTransGen.cases_head hn with hp | ⟨q, hq, hqn⟩
  · exact hself n hp
  · exact h q hq n hqn

/-! ### Shorthand cases -/

theorem synthesize {path : SchemaPath} {augmentations : List Augmentation}
    {unknown : List UnknownStatement} (hself : P (c.synthesize path augmentations unknown))
    (hc : All P (.node c)) (ha : ∀ a ∈ augmentations, All P (.augmentation a))
    (hwrap : ∀ o, c.origin = some o → All P (.node o.wrap)) :
    All P (.node (c.synthesize path augmentations unknown)) := by
  refine of_parts ?_ fun q hq => ?_
  · rintro _ ⟨⟩
    exact hself
  · simp only [parts, Node.synthesize, List.map_nil, List.append_nil, List.mem_append,
      List.mem_map, Option.mem_toList, Option.map_eq_some_iff] at hq
    obtain (⟨c', hc', rfl⟩ | ⟨a, ha', rfl⟩) | ⟨w, ⟨o, ho, rfl⟩, rfl⟩ := hq
    · rw [List.mem_singleton.1 hc']
      exact hc
    · exact ha a ha'
    · exact hwrap o ho

/-- The shorthand cases that are made up for origins take the property over, one origin after the
other. -/
theorem wrap (hP : ∀ n, P n → P n.wrap) (n : Node) (h : All P (.node n)) : All P (.node n.wrap) := by
  have hself := hP n h.self
  rw [Node.wrap_eq_synthesize] at hself ⊢
  refine synthesize hself h (fun _ ha => (by cases ha)) fun o ho => ?_
  match n, ho with
  | ⟨_, _, _, _, _, _, some _⟩, rfl => exact wrap hP o (h.origin rfl)

end Part.All

/-! ## Snapshots -/

namespace Draft

variable {d : Draft} {fuel : Nat}

/-- All nodes have the property that the snapshots of so many steps down refer to. -/
structure ShotsAll (P : Node → Prop) (d : Draft) (fuel : Nat) : Prop where
  node : ∀ i v, d.NodeShot fuel i v → Part.All P (.node v)
  grouping : ∀ i v, d.GroupingShot fuel i v → Part.All P (.grouping v)
  uses : ∀ i v, d.UsesShot fuel i v → Part.All P (.uses v)
  augment : ∀ i v, d.AugmentShot fuel i v → Part.All P (.augmentation v)

theorem exists_of_optionRel {α β : Type} {R : α → β → Prop} {x : Option α} {y : Option β} {b : β}
    (h : Option.Rel R x y) (hb : b ∈ y.toList) : ∃ a, R a b := by
  cases h with
  | none => cases hb
  | some h => exact ⟨_, List.mem_singleton.1 hb ▸ h⟩

/-- What the snapshots of a list refer to. -/
theorem all_of_forall₂ {α β : Type} {R : α → β → Prop} {part : β → Part} {l : List α} {vs : List β}
    (hR : ∀ i v, R i v → (part v).All P) (h : List.Forall₂ R l vs) :
    ∀ q ∈ vs.map part, q.All P := by
  intro q hq
  obtain ⟨v, hv, rfl⟩ := List.mem_map.1 hq
  obtain ⟨i, -, hi⟩ := exists_of_forall₂_right h hv
  exact hR i v hi

theorem all_of_optionRel {α β : Type} {R : α → β → Prop} {part : β → Part} {x : Option α}
    {y : Option β} (hR : ∀ i v, R i v → (part v).All P) (h : Option.Rel R x y) :
    ∀ q ∈ y.toList.map part, q.All P := by
  intro q hq
  obtain ⟨v, hv, rfl⟩ := List.mem_map.1 hq
  obtain ⟨i, hi⟩ := exists_of_optionRel h hv
  exact hR i v hi

/-- The snapshots of nodes have the property if the snapshots of their children do. -/
def SnapshotsHave (P : Node → Prop) (d : Draft) : Prop :=
  ∀ i v, d.NodeSnapshot i v → (∀ c ∈ v.children, P c) → P v

namespace ShotsAll

variable (hsnap : d.SnapshotsHave P) (hwrap : ∀ n, P n → P n.wrap) (ih : ShotsAll P d fuel)
include hsnap hwrap ih

theorem succ_node (i : NodeId) (v : Node) (h : d.NodeShot (fuel + 1) i v) : Part.All P (.node v) := by
  have hv := hsnap i v ⟨fuel + 1, h⟩
  simp only [NodeShot] at h
  obtain ⟨children, augmentations, hchildren, haugmentations, hrest⟩ := h
  have hall := all_of_forall₂ ih.node hchildren
  have hmerged := all_of_forall₂ ih.augment haugmentations
  split at hrest
  · obtain ⟨child, rest, rfl, rfl⟩ := hrest
    have hc : Part.All P (.node child) := hall _ List.mem_cons_self
    refine .synthesize (hv fun c hc' => ?_) hc (fun a ha => hmerged _ (List.mem_map_of_mem ha))
      fun o ho => Part.All.wrap hwrap o (hc.origin ho)
    rw [List.mem_singleton.1 hc']
    exact hc.self
  · obtain ⟨origin, groupings, uses, horigin, hgroupings, huses, rfl⟩ := hrest
    refine .of_parts ?_ fun q hq => ?_
    · rintro _ ⟨⟩
      exact hv fun c hc => (hall _ (List.mem_map_of_mem hc)).self
    · simp only [Part.parts, snapshotNode, List.mem_append] at hq
      obtain (((hq | hq) | hq) | hq) | hq := hq
      · exact hall q hq
      · exact all_of_forall₂ ih.grouping hgroupings q hq
      · exact all_of_forall₂ ih.uses huses q hq
      · exact hmerged q hq
      · exact all_of_optionRel ih.node horigin q hq

omit hsnap hwrap in
theorem succ_augment (i : AugmentId) (v : Augmentation) (h : d.AugmentShot (fuel + 1) i v) :
    Part.All P (.augmentation v) := by
  simp only [AugmentShot] at h
  obtain ⟨origin, children, uses, horigin, hchildren, huses, rfl⟩ := h
  refine .of_parts (fun _ hn => by cases hn) fun q hq => ?_
  simp only [Part.parts, List.mem_append] at hq
  obtain (hq | hq) | hq := hq
  · exact all_of_forall₂ ih.node hchildren q hq
  · exact all_of_forall₂ ih.uses huses q hq
  · exact all_of_optionRel ih.augment horigin q hq

theorem succ : ShotsAll P d (fuel + 1) where
  node := ih.succ_node hsnap hwrap
  grouping i v h := by
    simp only [GroupingShot] at h
    obtain ⟨children, groupings, uses, hchildren, hgroupings, huses, rfl⟩ := h
    refine .of_parts (fun _ hn => by cases hn) fun q hq => ?_
    simp only [Part.parts, List.mem_append] at hq
    obtain (hq | hq) | hq := hq
    · exact all_of_forall₂ ih.node hchildren q hq
    · exact all_of_forall₂ ih.grouping hgroupings q hq
    · exact all_of_forall₂ ih.uses huses q hq
  uses i v h := by
    simp only [UsesShot] at h
    obtain ⟨augmentations, haugmentations, rfl⟩ := h
    exact .of_parts (fun _ hn => by cases hn) fun q hq => all_of_forall₂ ih.augment haugmentations q hq
  augment := ih.succ_augment

end ShotsAll

variable (hsnap : d.SnapshotsHave P) (hwrap : ∀ n, P n → P n.wrap)
include hsnap hwrap

theorem shotsAll (fuel : Nat) : ShotsAll P d fuel := by
  induction fuel with
  | zero =>
    refine ⟨fun i v h => ?_, fun i v h => ?_, fun i v h => ?_, fun i v h => ?_⟩
    · simp only [NodeShot] at h
    · simp only [GroupingShot] at h
    · simp only [UsesShot] at h
    · simp only [AugmentShot] at h
  | succ fuel ih => exact ih.succ hsnap hwrap

/-- What the snapshot of a module refers to has the property. -/
theorem ModuleSnapshot.all {i : ModuleId} {m : Module} (hm : d.ModuleSnapshot i m) {q : Part}
    (hq : q ∈ m.parts) : q.All P := by
  have hall := shotsAll hsnap hwrap
  obtain ⟨nodes, groupings, augmentations, uses, hnodes, hgroupings, haugmentations, huses, rfl⟩ := hm
  simp only [Module.parts, List.mem_append] at hq
  obtain ((hq | hq) | hq) | hq := hq
  · obtain ⟨n, hn, rfl⟩ := List.mem_map.1 hq
    have hn' : n ∈ nodes := by
      unfold Module.topLevel snapshotModule at hn
      simp only [List.mem_append, List.mem_filter] at hn
      obtain (hn | hn) | hn := hn <;> exact hn.1
    obtain ⟨j, -, fuel, hj⟩ := exists_of_forall₂_right hnodes hn'
    exact (hall fuel).node j n hj
  · exact all_of_forall₂ (fun j v ⟨fuel, hj⟩ => (hall fuel).grouping j v hj) hgroupings q hq
  · exact all_of_forall₂ (fun j v ⟨fuel, hj⟩ => (hall fuel).uses j v hj) huses q hq
  · exact all_of_forall₂ (fun j v ⟨fuel, hj⟩ => (hall fuel).augment j v hj) haugmentations q hq

end Draft

end YangSchema
