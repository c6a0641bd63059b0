import YangSchema.Proofs.Draft.Freezing
import YangSchema.Proofs.Declaration.Module
import YangSchema.Proofs.Inference.Confluence
import YangSchema.Proofs.Schema.Lookup

/-!
# Schemas that were frozen from a draft

What is found by a path in a frozen schema is the snapshot of what the draft has there
(`Frozen.exists_findDataNode`).  The other way round a node of the draft is found unless the path
goes through a shorthand case, whose snapshot holds its first child only (`Frozen.child?_rel`).
-/

namespace YangSchema

open Draft

variable {d₀ d : Draft} {i : NodeId} {x : Site} {n t : Node} {q : QName}

/-! ## Nodes -/

theorem Draft.NodeSnapshot.kind (h : d.NodeSnapshot i n) : n.kind = (d.node i).kind := by
  cases hk : (d.node i).kind.isShorthandCase with
  | false => exact congrArg NodeFacts.kind (h.of_not_shorthand hk).1
  | true =>
    obtain ⟨_, _, child, _, -, -, rfl⟩ := h.of_shorthand hk
    exact (NodeKind.isShorthandCase_iff.1 hk).symm

/-- The first nodes of a name in corresponding lists correspond. -/
theorem Draft.find?_snapshot {l : List NodeId} {ns : List Node} (h : List.Forall₂ d.NodeSnapshot l ns)
    (hname : ∀ c ∈ l, ∀ n, d.NodeSnapshot c n → n.name = (d.node c).name) (q : QName) :
    Option.Rel d.NodeSnapshot (l.find? fun c => (d.node c).name == q) (ns.find? (·.name == q)) :=
  find?_forall₂ h fun c hc n hn => by rw [hname c hc n hn]

namespace Draft.Follows

variable (h : d₀.Follows d) (hx : d₀.HasSite x)
include h hx

theorem snapshot_name (hi : d.Under (.node i) x) (hn : d.NodeSnapshot i n) :
    n.name = (d.node i).name := by
  cases hk : (d.node i).kind.isShorthandCase with
  | false => exact congrArg NodeFacts.name (hn.of_not_shorthand hk).1
  | true =>
    obtain ⟨c, rest, child, _, hchildren, hchild, rfl⟩ := hn.of_shorthand hk
    obtain ⟨c', ⟨rest', hrest⟩, hname, hcase⟩ :=
      h.regular.cases x hx i hi (NodeKind.isShorthandCase_iff.1 hk)
    have hcc : c = c' := (List.cons.inj (hchildren.symm.trans hrest)).1
    subst hcc
    rw [← hname]
    have hfacts := (hchild.of_not_shorthand (NodeKind.isShorthandCase_of_isCase hcase)).1
    show child.facts.name = _
    rw [hfacts]
    rfl

/-- A node that is no shorthand case has the children that it has in the draft. -/
theorem child?_rel (hi : d.Under (.node i) x) (hn : d.NodeSnapshot i n)
    (hk : (d.node i).kind.isShorthandCase = false) (q : QName) :
    Option.Rel d.NodeSnapshot (d.findChild (.node i) q) (n.child? q) := by
  refine find?_snapshot (hn.of_not_shorthand hk).2.1 (fun c hc n hn => ?_) q
  exact h.snapshot_name hx (h.sound.under_of_mem hi hc) hn

/-- What is found below a snapshot is found in the draft. -/
theorem exists_findChild (hi : d.Under (.node i) x) (hn : d.NodeSnapshot i n)
    (ht : n.child? q = some t) : ∃ c, d.findChild (.node i) q = some c ∧ d.NodeSnapshot c t := by
  cases hk : (d.node i).kind.isShorthandCase with
  | false =>
    have hrel := h.child?_rel hx hi hn hk q
    rw [ht] at hrel
    cases hf : d.findChild (.node i) q with
    | none => rw [hf] at hrel; cases hrel
    | some c =>
      rw [hf] at hrel
      cases hrel with
      | some hc => exact ⟨c, rfl, hc⟩
  | true =>
    obtain ⟨c, rest, child, _, hchildren, hchild, rfl⟩ := hn.of_shorthand hk
    have hmem : c ∈ d.childrenOf (.node i) := by
      show c ∈ (d.node i).children
      rw [hchildren]
      exact List.mem_cons_self
    have hname := h.snapshot_name hx (h.sound.under_of_mem hi hmem) hchild
    have hq := List.find?_some ht
    obtain rfl := List.mem_singleton.1 (List.mem_of_find?_eq_some ht)
    refine ⟨c, ?_, hchild⟩
    unfold findChild
    rw [show d.childrenOf (.node i) = c :: rest from hchildren, List.find?_cons, ← hname, hq]

theorem exists_descend {p : List QName} (hi : d.Under (.node i) x) (hn : d.NodeSnapshot i n)
    (ht : n.descendant? p = some t) :
    ∃ j, d.descend (.node i) p = some (.node j) ∧ d.Under (.node j) x ∧ d.NodeSnapshot j t := by
  induction p generalizing i n with
  | nil =>
    cases ht
    exact ⟨i, rfl, hi, hn⟩
  | cons q p ih =>
    obtain ⟨m, hm, ht⟩ := Node.descendant?_cons.1 ht
    obtain ⟨c, hc, hcm⟩ := h.exists_findChild hx hi hn hm
    obtain ⟨j, hj, hjx, hjt⟩ :=
      ih (h.sound.under_of_mem hi (findChild_eq_some hc).1) hcm ht
    exact ⟨j, descend_cons.2 ⟨c, hc, hj⟩, hjx, hjt⟩

end Draft.Follows

/-! ## Modules -/

theorem find?_filter_of_forall {α : Type} {p r : α → Bool} {l : List α}
    (h : ∀ a ∈ l, p a = true → r a = true) : (l.filter r).find? p = l.find? p := by
  rw [List.find?_filter]
  refine List.find?_congr fun a ha => ?_
  cases hp : p a with
  | false => simp
  | true => simp [h a ha hp]

theorem find?_filter_of_not {α : Type} {p r : α → Bool} {l : List α}
    (h : ∀ a ∈ l, p a = true → r a = false) : (l.filter r).find? p = none := by
  refine List.find?_eq_none.2 fun a ha hp => ?_
  obtain ⟨ha, hr⟩ := List.mem_filter.1 ha
  rw [h a ha hp] at hr
  cases hr

/-- Sorting the top-level nodes does not matter for a name that is told apart. -/
theorem Draft.find?_topLevel {r : ModuleDraft} {nodes : List Node} {groupings : List Grouping}
    {augmentations : List Augmentation} {uses : List Uses}
    (h : (snapshotModule r nodes groupings augmentations uses).TellsApart q) :
    (snapshotModule r nodes groupings augmentations uses).topLevel.find? (·.name == q) =
      nodes.find? (·.name == q) := by
  unfold Module.TellsApart Module.topLevel at h
  unfold Module.topLevel
  simp only [snapshotModule, List.mem_append, List.mem_filter] at h ⊢
  rw [List.find?_append, List.find?_append]
  cases hf : nodes.find? (·.name == q) with
  | none =>
    have hnone := List.find?_eq_none.1 hf
    rw [find?_filter_of_not (fun n hn hq => absurd hq (hnone n hn)),
      find?_filter_of_not (fun n hn hq => absurd hq (hnone n hn)),
      find?_filter_of_not (fun n hn hq => absurd hq (hnone n hn))]
    rfl
  | some n =>
    have hn := List.mem_of_find?_eq_some hf
    have hnq : n.name = q := by simpa using List.find?_some hf
    have hsorts : ∀ n' ∈ nodes, ((n' ∈ nodes ∧ (n'.kind != .rpc && n'.kind != .notification) = true) ∨
        n' ∈ nodes ∧ (n'.kind == .rpc) = true) ∨ n' ∈ nodes ∧ (n'.kind == .notification) = true := by
      intro n' hn'
      cases n'.kind <;> simp [hn']
    by_cases hrpc : n.kind = .rpc
    · have hall : ∀ n' ∈ nodes, (n'.name == q) = true → n'.kind = .rpc := fun n' hn' hq =>
        (h n (.inl ⟨hn, by rw [hrpc]; rfl⟩) hnq n' (hsorts n' hn') (by simpa using hq)).trans hrpc
      rw [find?_filter_of_not (fun n' hn' hq => by rw [hall n' hn' hq]; rfl),
        find?_filter_of_forall (fun n' hn' hq => by rw [hall n' hn' hq]; rfl), hf]
      rfl
    by_cases hnot : n.kind = .notification
    · have hall : ∀ n' ∈ nodes, (n'.name == q) = true → n'.kind = .notification := fun n' hn' hq =>
        (h n (.inr ⟨hn, by rw [hnot]; rfl⟩) hnq n' (hsorts n' hn') (by simpa using hq)).trans hnot
      rw [find?_filter_of_not (fun n' hn' hq => by rw [hall n' hn' hq]; rfl),
        find?_filter_of_not (fun n' hn' hq => by rw [hall n' hn' hq]; rfl),
        find?_filter_of_forall (fun n' hn' hq => by rw [hall n' hn' hq]; rfl), hf]
      rfl
    · -- an rpc or a notification of this name would make the node one, too
      have hall : ∀ n' ∈ nodes, (n'.name == q) = true → n'.kind ≠ .rpc ∧ n'.kind ≠ .notification := by
        refine fun n' hn' hq => ⟨fun hk => hrpc ?_, fun hk => hnot ?_⟩
        · exact (h n' (.inl ⟨hn', by rw [hk]; rfl⟩) (by simpa using hq) n (hsorts n hn) hnq).trans hk
        · exact (h n' (.inr ⟨hn', by rw [hk]; rfl⟩) (by simpa using hq) n (hsorts n hn) hnq).trans hk
      rw [find?_filter_of_forall (fun n' hn' hq => by simp [hall n' hn' hq]), hf]
      rfl

/-- The schema was frozen from the draft `d`, which grew out of the declared draft `d₀`. -/
structure Frozen (d₀ d : Draft) (modules : List ModuleId) (schema : Schema) : Prop where
  follows : d₀.Follows d
  snapshots : List.Forall₂ d.ModuleSnapshot modules schema.modules
  mem_modules : ∀ i : ModuleId, i ∈ modules ↔ i.index < d₀.modules.size
  identities : ∀ i j, i.index < d₀.modules.size → j.index < d₀.modules.size →
    (d₀.module i).facts.identity = (d₀.module j).facts.identity → i = j

theorem Draft.of_moduleOf? {j : ModuleIdentity} {m : ModuleId} (h : d.moduleOf? j = some m) :
    m.index < d.modules.size ∧ (d.module m).facts.identity = j := by
  unfold moduleOf? at h
  obtain ⟨n, hn, rfl⟩ := Option.map_eq_some_iff.1 h
  obtain ⟨hlt, hid, -⟩ := Array.findIdx?_eq_some_iff_getElem.1 hn
  refine ⟨hlt, ?_⟩
  unfold Draft.module Shelf.read
  rw [Array.getElem?_eq_getElem hlt]
  simpa using hid

theorem Draft.ModuleSnapshot.facts {i : ModuleId} {m : Module} (h : d.ModuleSnapshot i m) :
    m.facts = (d.module i).facts := by
  obtain ⟨_, _, _, _, -, -, -, -, rfl⟩ := h
  rfl

theorem Draft.ModuleSnapshot.augmentations {i : ModuleId} {m : Module} (h : d.ModuleSnapshot i m) :
    List.Forall₂ d.AugmentSnapshot (d.module i).augmentations m.augmentations := by
  obtain ⟨_, _, _, _, -, -, ha, -, rfl⟩ := h
  exact ha

/-- No name that the path starts with is shared by data nodes, rpcs and notifications. -/
def Schema.TellsApart (s : Schema) (p : SchemaPath) : Prop :=
  ∀ m ∈ s.modules, ∀ q, p.first? = some q → m.TellsApart q

namespace Frozen

variable {modules : List ModuleId} {schema : Schema} {m : Module} {p : SchemaPath}
  (h : Frozen d₀ d modules schema)
include h

theorem exists_snapshot (hm : m ∈ schema.modules) :
    ∃ i : ModuleId, i.index < d₀.modules.size ∧ d.ModuleSnapshot i m := by
  obtain ⟨i, hi, him⟩ := exists_of_forall₂_right h.snapshots hm
  exact ⟨i, (h.mem_modules i).1 hi, him⟩

/-- A module is found by its identity in the schema as in the draft. -/
theorem exists_moduleOf? {q : ModuleIdentity} (hm : schema.findModuleByIdentity q = some m) :
    ∃ i, d.moduleOf? q = some i ∧ d.ModuleSnapshot i m := by
  obtain ⟨hmem, hid⟩ := Schema.of_findModuleByIdentity hm
  obtain ⟨i, hi, him⟩ := h.exists_snapshot hmem
  have hiq : (d.module i).facts.identity = q := by
    rw [← him.facts]
    exact hid
  have hk := h.follows.keeps
  cases hfind : d.moduleOf? q with
  | none => exact absurd hiq (identity_ne_of_moduleOf? hfind (Nat.lt_of_lt_of_le hi hk.modules_le))
  | some j =>
    obtain ⟨hj, hjq⟩ := of_moduleOf? hfind
    rw [h.follows.modules_size] at hj
    have hij : i = j := by
      refine h.identities i j hi hj ?_
      rw [← hk.identity i hi, ← hk.identity j hj, hiq, hjq]
    exact ⟨i, by rw [hij], him⟩

/-- What a path finds in the schema is the snapshot of what it finds in the draft. -/
theorem exists_findDataNode (hp : schema.TellsApart p) (ht : schema.findNode p = some t) :
    ∃ j i, d.findDataNode p = some j ∧ d₀.HasSite (.module i) ∧ d.Under (.node j) (.module i) ∧
      d.NodeSnapshot j t := by
  obtain ⟨q, m, hq, hm, ht⟩ := Schema.findNode_eq_some.1 ht
  obtain ⟨i, hi, him⟩ := h.exists_moduleOf? hm
  have hsite : d₀.HasSite (.module i) := hasSite_of_moduleOf? (h.follows.moduleOf? q.owner ▸ hi)
  have hapart := hp m (Schema.of_findModuleByIdentity hm).1 q hq
  obtain ⟨nodes, groupings, augmentations, uses, hnodes, -, -, -, rfl⟩ := him
  unfold Module.findNode at ht
  unfold SchemaPath.first? at hq
  cases hs : p.steps with
  | nil => rw [hs] at hq; cases hq
  | cons q' steps =>
    rw [hs] at ht hq
    cases hq
    obtain ⟨n, hn, ht⟩ := Option.bind_eq_some_iff.1 ht
    rw [find?_topLevel hapart] at hn
    have hname : ∀ c ∈ (d.module i).children, ∀ n, d.NodeSnapshot c n → n.name = (d.node c).name :=
      fun c hc n hn => h.follows.snapshot_name hsite
        (h.follows.sound.under_of_mem (x := .module i) (.refl _) hc) hn
    have hrel := find?_snapshot hnodes hname q
    rw [hn] at hrel
    cases hf : (d.module i).children.find? (fun c => (d.node c).name == q) with
    | none => rw [hf] at hrel; cases hrel
    | some c =>
      rw [hf] at hrel
      cases hrel with
      | some hc =>
        have hunder := h.follows.sound.under_of_mem (x := .module i) (.refl _)
          (List.mem_of_find?_eq_some hf)
        obtain ⟨j, hj, hjx, hjt⟩ := h.follows.exists_descend hsite hunder hc ht
        refine ⟨j, i, findDataNode_eq_some.2 ⟨q, i, by rw [SchemaPath.first?, hs]; rfl, hi, ?_⟩,
          hsite, hjx, hjt⟩
        rw [hs]
        exact findDescendant_eq_some.2 ⟨List.cons_ne_nil _ _, descend_cons.2 ⟨c, hf, hj⟩⟩

end Frozen

end YangSchema
