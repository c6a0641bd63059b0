import YangSchema.Schema.Context

/-!
# Looking things up in a schema

If the modules that are selected have different revisions, then an index by revision holds all of them
(`Schema.mem_editions`).  So if no two modules of a schema have one identity, each of them is found by its
own (`findModuleByIdentity_eq_some`), and a path that goes on leads through the node that it led to before
(`findNode_child`).
-/

namespace YangSchema

theorem SchemaPath.first?_child {p : SchemaPath} (h : p.steps ≠ []) (q : QName) :
    (p.child q).first? = p.first? := by
  unfold first?
  rw [child_steps]
  cases hs : p.steps with
  | nil => exact absurd hs h
  | cons => rfl

/-! ## Nodes -/

namespace Node

variable {n t : Node} {q : QName}

theorem descendant?_cons {steps : List QName} :
    n.descendant? (q :: steps) = some t ↔ ∃ c, n.child? q = some c ∧ c.descendant? steps = some t := by
  rw [descendant?, Option.bind_eq_some_iff]

theorem descendant?_snoc {steps : List QName} :
    n.descendant? (steps ++ [q]) = (n.descendant? steps).bind fun t => t.child? q := by
  induction steps generalizing n with
  | nil =>
    show (n.child? q).bind (fun c => some c) = n.child? q
    exact Option.bind_fun_some _
  | cons q' steps ih =>
    show (n.child? q').bind _ = ((n.child? q').bind _).bind _
    rw [Option.bind_assoc]
    congr
    funext c
    exact ih

end Node

/-! ## Modules -/

/-- A name that an rpc or a notification has at the top level belongs to such nodes only. -/
def Module.TellsApart (m : Module) (q : QName) : Prop :=
  ∀ n ∈ m.rpcs ++ m.notifications, n.name = q → ∀ n' ∈ m.topLevel, n'.name = q → n'.kind = n.kind

namespace Schema

variable {s : Schema} {i : ModuleIdentity} {m : Module} {p : SchemaPath} {q : QName} {t : Node}
  {select : Module → Bool}

theorem of_findModuleByIdentity (h : s.findModuleByIdentity i = some m) :
    m ∈ s.modules ∧ m.identity = i := by
  unfold findModuleByIdentity findModulesByNamespace editions at h
  have hrev := List.find?_some h
  obtain ⟨hmem, hns⟩ := List.mem_filter.1 (mem_of_mem_orderedBy (List.mem_of_find?_eq_some h))
  refine ⟨hmem, ?_⟩
  cases hi : m.identity with
  | mk ns r =>
    cases i
    rw [beq_iff_eq] at hns hrev
    unfold Module.revision at hrev
    rw [hi] at hns hrev
    rw [show ns = _ from hns, show r = _ from hrev]

/-- The selected modules have different revisions. -/
def Distinguishes (s : Schema) (select : Module → Bool) : Prop :=
  ∀ m ∈ s.modules, select m → ∀ m' ∈ s.modules, select m' → m.revision = m'.revision → m = m'

theorem mem_editions (h : s.Distinguishes select) : m ∈ s.editions select ↔ m ∈ s.modules ∧ select m := by
  rw [← List.mem_filter]
  refine ⟨mem_of_mem_orderedBy, mem_orderedBy fun a ha b hb => ?_⟩
  obtain ⟨ha, hpa⟩ := List.mem_filter.1 ha
  obtain ⟨hb, hpb⟩ := List.mem_filter.1 hb
  exact h a ha hpa b hb hpb

theorem find?_editions (h : s.Distinguishes select) {r : Option Revision} :
    (s.editions select).find? (·.revision == r) = some m ↔ m ∈ s.modules ∧ select m ∧ m.revision = r := by
  constructor
  · intro hfind
    obtain ⟨hm, hp⟩ := (mem_editions h).1 (List.mem_of_find?_eq_some hfind)
    exact ⟨hm, hp, by simpa using List.find?_some hfind⟩
  · rintro ⟨hm, hp, rfl⟩
    cases hfind : (s.editions select).find? (·.revision == m.revision) with
    | none =>
      exact absurd (beq_self_eq_true _) (List.find?_eq_none.1 hfind m ((mem_editions h).2 ⟨hm, hp⟩))
    | some m' =>
      obtain ⟨hm', hp'⟩ := (mem_editions h).1 (List.mem_of_find?_eq_some hfind)
      have hrevision : m'.revision = m.revision := by simpa using List.find?_some hfind
      rw [h m' hm' hp' m hm hp hrevision]

/-- Modules of one namespace have different revisions if no two modules have one identity. -/
theorem distinguishes_namespace
    (hunique : ∀ m ∈ s.modules, ∀ m' ∈ s.modules, m.identity = m'.identity → m = m') (uri : String) :
    s.Distinguishes (·.identity.namespaceUri == uri) := by
  intro m hm huri m' hm' huri' hrevision
  refine hunique m hm m' hm' ?_
  show ModuleIdentity.mk m.identity.namespaceUri m.revision = ⟨m'.identity.namespaceUri, m'.revision⟩
  rw [eq_of_beq huri, eq_of_beq huri', hrevision]

theorem findModuleByIdentity_eq_some
    (hunique : ∀ m ∈ s.modules, ∀ m' ∈ s.modules, m.identity = m'.identity → m = m')
    (hm : m ∈ s.modules) : s.findModuleByIdentity m.identity = some m :=
  (find?_editions (distinguishes_namespace hunique _)).2 ⟨hm, beq_self_eq_true _, rfl⟩

theorem findNode_eq_some : s.findNode p = some t ↔ ∃ q m, p.first? = some q ∧
    s.findModuleByIdentity q.owner = some m ∧ m.findNode p = some t := by
  unfold findNode
  simp only [Option.bind_eq_bind, Option.bind_eq_some_iff]
  constructor
  · rintro ⟨q, hq, m, hm, ht⟩
    exact ⟨q, m, hq, hm, ht⟩
  · rintro ⟨q, m, hq, hm, ht⟩
    exact ⟨q, hq, m, hm, ht⟩

theorem findNode_child (hp : p.steps ≠ []) :
    s.findNode (p.child q) = (s.findNode p).bind fun t => t.child? q := by
  have hmodule : ∀ m : Module, m.findNode (p.child q) = (m.findNode p).bind fun t => t.child? q := by
    intro m
    unfold Module.findNode
    rw [SchemaPath.child_steps]
    cases hs : p.steps with
    | nil => exact absurd hs hp
    | cons q' steps =>
      show (List.find? _ _).bind _ = ((List.find? _ _).bind _).bind _
      rw [Option.bind_assoc]
      congr
      funext n
      exact Node.descendant?_snoc
  unfold findNode
  rw [SchemaPath.first?_child hp]
  simp only [Option.bind_eq_bind, Option.bind_assoc, hmodule]

end Schema

end YangSchema
