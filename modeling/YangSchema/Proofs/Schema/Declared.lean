import YangSchema.Proofs.Schema.Parts
import YangSchema.Proofs.Schema.Trees

/-!
# What a module declares

A module declares what it lists and what stands in its declarations, but for the copies among them
(`Module.Declares`).  What stands in a snapshot are snapshots of what stands in the draft
(`Draft.PartSnapshot.exists_of_contents`), and what a snapshot says of its name and its origin is said by
a node that somebody wrote, or by a copy of one (`Draft.NodeSnapshot.exists_written`).
-/

namespace YangSchema

open Draft

namespace Part

/-- What stands in a definition; not what was merged into it, nor its origin. -/
def contents : Part → List Part
  | node n => n.children.map node ++ n.groupings.map grouping ++ n.uses.map uses
  | grouping g => g.children.map node ++ g.groupings.map grouping ++ g.uses.map uses
  | uses u => u.augmentations.map augmentation
  | augmentation a => a.children.map node ++ a.uses.map uses

/-- A node or an augmentation that was copied from another one. -/
def isCopy : Part → Bool
  | node n => n.origin.isSome
  | augmentation a => a.origin.isSome
  | grouping _ => false
  | uses _ => false

end Part

/-- The definition was declared in the module, at the top or inside of another one that was. -/
inductive Module.Declares (m : Module) : Part → Prop
  | listed {p : Part} (hp : p ∈ m.parts) (hcopy : p.isCopy = false) : m.Declares p
  | inside {p q : Part} (h : m.Declares p) (hq : q ∈ p.contents) (hcopy : q.isCopy = false) :
    m.Declares q

/-! ## Snapshots of what stands in a definition -/

namespace Draft

variable {d : Draft} {i : NodeId} {n : Node} {x : Item} {p q : Part}

/-- `y` stands in `x`, or `x` lists it as one of its groupings or, being a module, augmentations. -/
inductive Houses (d : Draft) : Item → Item → Prop
  | contained {x y : Item} (h : d.Contains y x) : d.Houses y x
  | grouping {s : Site} {g : GroupingId} (h : g ∈ d.groupingsAt s) :
    d.Houses (.site (.grouping g)) (.site s)
  | top {m : ModuleId} {a : AugmentId} (h : a ∈ d.augmentsAt (.module m)) :
    d.Houses (.site (.augment a)) (.site (.module m))

theorem Houses.child {s : Site} {c : NodeId} (h : c ∈ d.childrenOf s) :
    d.Houses (.site (.node c)) (.site s) :=
  .contained (contains_site.2 (.inl ⟨c, h, rfl⟩))

theorem Houses.uses {s : Site} {u : UsesId} (h : u ∈ d.usesAt s) : d.Houses (.uses u) (.site s) :=
  .contained (contains_site.2 (.inr ⟨u, h, rfl⟩))

theorem Houses.inner {u : UsesId} {a : AugmentId} (h : a ∈ (d.usesOf u).augmentations) :
    d.Houses (.site (.augment a)) (.uses u) :=
  .contained (contains_uses.2 ⟨a, h, rfl⟩)

/-- The part is the snapshot of the item. -/
inductive PartSnapshot (d : Draft) : Item → Part → Prop
  | node {i : NodeId} {n : Node} (h : d.NodeSnapshot i n) : d.PartSnapshot (.site (.node i)) (.node n)
  | grouping {i : GroupingId} {g : Grouping} (h : d.GroupingSnapshot i g) :
    d.PartSnapshot (.site (.grouping i)) (.grouping g)
  | uses {i : UsesId} {u : Uses} (h : d.UsesSnapshot i u) : d.PartSnapshot (.uses i) (.uses u)
  | augmentation {i : AugmentId} {a : Augmentation} (h : d.AugmentSnapshot i a) :
    d.PartSnapshot (.site (.augment i)) (.augmentation a)

theorem NodeSnapshot.groupings_uses (h : d.NodeSnapshot i n)
    (hk : (d.node i).kind.isShorthandCase = false) :
    List.Forall₂ d.GroupingSnapshot (d.node i).groupings n.groupings ∧
      List.Forall₂ d.UsesSnapshot (d.node i).uses n.uses := by
  obtain ⟨_ | f, hf⟩ := h
  · exact hf.elim
  · obtain ⟨children, augmentations, -, -, hn⟩ := hf
    rw [if_neg (by simp [hk])] at hn
    obtain ⟨origin, groupings, uses, -, hg, hu, rfl⟩ := hn
    exact ⟨hg.imp fun _ _ h => ⟨f, h⟩, hu.imp fun _ _ h => ⟨f, h⟩⟩

theorem GroupingSnapshot.parts {g : GroupingId} {v : Grouping} (h : d.GroupingSnapshot g v) :
    v.facts = (d.grouping g).facts ∧ List.Forall₂ d.NodeSnapshot (d.grouping g).children v.children ∧
      List.Forall₂ d.GroupingSnapshot (d.grouping g).groupings v.groupings ∧
      List.Forall₂ d.UsesSnapshot (d.grouping g).uses v.uses := by
  obtain ⟨_ | f, hf⟩ := h
  · exact hf.elim
  · obtain ⟨children, groupings, uses, hc, hg, hu, rfl⟩ := hf
    exact ⟨rfl, hc.imp fun _ _ h => ⟨f, h⟩, hg.imp fun _ _ h => ⟨f, h⟩, hu.imp fun _ _ h => ⟨f, h⟩⟩

theorem UsesSnapshot.augmentations {u : UsesId} {v : Uses} (h : d.UsesSnapshot u v) :
    List.Forall₂ d.AugmentSnapshot (d.usesOf u).augmentations v.augmentations := by
  obtain ⟨_ | f, hf⟩ := h
  · exact hf.elim
  · obtain ⟨augmentations, ha, rfl⟩ := hf
    exact ha.imp fun _ _ h => ⟨f, h⟩

theorem AugmentSnapshot.uses_origin {a : AugmentId} {v : Augmentation} (h : d.AugmentSnapshot a v) :
    List.Forall₂ d.UsesSnapshot (d.augment a).uses v.uses ∧
      Option.Rel d.AugmentSnapshot (d.augment a).origin v.origin := by
  obtain ⟨_ | f, hf⟩ := h
  · exact hf.elim
  · obtain ⟨origin, children, uses, ho, -, hu, rfl⟩ := hf
    exact ⟨hu.imp fun _ _ h => ⟨f, h⟩, optionRel_imp (fun _ _ h => ⟨f, h⟩) ho⟩

/-- Lists of snapshots of what `x` holds. -/
theorem exists_houses {α β : Type} {R : α → β → Prop} {item : α → Item} {part : β → Part} {l : List α}
    {vs : List β} (h : List.Forall₂ R l vs) (hhouses : ∀ i ∈ l, d.Houses (item i) x)
    (hsnap : ∀ i v, R i v → d.PartSnapshot (item i) (part v)) (hq : q ∈ vs.map part) :
    ∃ y, d.Houses y x ∧ d.PartSnapshot y q := by
  obtain ⟨v, hv, rfl⟩ := List.mem_map.1 hq
  obtain ⟨i, hi, hiv⟩ := exists_of_forall₂_right h hv
  exact ⟨item i, hhouses i hi, hsnap i v hiv⟩

theorem NodeSnapshot.exists_of_contents (h : d.NodeSnapshot i n) (hq : q ∈ (Part.node n).contents) :
    ∃ y, d.Houses y (.site (.node i)) ∧ d.PartSnapshot y q := by
  simp only [Part.contents, List.mem_append] at hq
  cases hk : (d.node i).kind.isShorthandCase with
  | false =>
    obtain ⟨-, hchildren, -⟩ := h.of_not_shorthand hk
    obtain ⟨hgroupings, huses⟩ := h.groupings_uses hk
    obtain (hq | hq) | hq := hq
    · exact exists_houses hchildren (fun _ hc => .child hc) (fun _ _ => .node) hq
    · exact exists_houses hgroupings (fun _ hg => .grouping hg) (fun _ _ => .grouping) hq
    · exact exists_houses huses (fun _ hu => .uses hu) (fun _ _ => .uses) hq
  | true =>
    -- a shorthand case lists nothing but its node
    obtain ⟨c, rest, child, _, hchildren, hchild, rfl⟩ := h.of_shorthand hk
    obtain (hq | hq) | hq := hq
    · obtain ⟨t, ht, rfl⟩ := List.mem_map.1 hq
      obtain rfl := List.mem_singleton.1 ht
      refine ⟨_, .child ?_, .node hchild⟩
      show c ∈ (d.node i).children
      rw [hchildren]
      exact List.mem_cons_self
    · cases hq
    · cases hq

/-- What stands in a snapshot is the snapshot of what stands in the definition. -/
theorem PartSnapshot.exists_of_contents (h : d.PartSnapshot x p) (hq : q ∈ p.contents) :
    ∃ y, d.Houses y x ∧ d.PartSnapshot y q := by
  cases h with
  | node h => exact h.exists_of_contents hq
  | grouping h =>
    obtain ⟨-, hchildren, hgroupings, huses⟩ := h.parts
    simp only [Part.contents, List.mem_append] at hq
    obtain (hq | hq) | hq := hq
    · exact exists_houses hchildren (fun _ hc => .child hc) (fun _ _ => .node) hq
    · exact exists_houses hgroupings (fun _ hg => .grouping hg) (fun _ _ => .grouping) hq
    · exact exists_houses huses (fun _ hu => .uses hu) (fun _ _ => .uses) hq
  | uses h => exact exists_houses h.augmentations (fun _ ha => .inner ha) (fun _ _ => .augmentation) hq
  | augmentation h =>
    obtain ⟨-, hchildren⟩ := h.facts_children
    simp only [Part.contents, List.mem_append] at hq
    obtain hq | hq := hq
    · exact exists_houses hchildren (fun _ hc => .child hc) (fun _ _ => .node) hq
    · exact exists_houses h.uses_origin.1 (fun _ hu => .uses hu) (fun _ _ => .uses) hq

theorem ModuleSnapshot.exists_of_parts {k : ModuleId} {m : Module} (h : d.ModuleSnapshot k m)
    (hq : q ∈ m.parts) : ∃ y, d.Houses y (.site (.module k)) ∧ d.PartSnapshot y q := by
  obtain ⟨nodes, groupings, augmentations, uses, hnodes, hgroupings, haugmentations, huses, rfl⟩ := h
  simp only [Module.parts, List.mem_append] at hq
  obtain ((hq | hq) | hq) | hq := hq
  · obtain ⟨n, hn, rfl⟩ := List.mem_map.1 hq
    exact exists_houses hnodes (fun _ hc => .child hc) (fun _ _ => .node)
      (List.mem_map_of_mem (mem_topLevel.1 hn))
  · exact exists_houses hgroupings (fun _ hg => .grouping hg) (fun _ _ => .grouping) hq
  · exact exists_houses huses (fun _ hu => .uses hu) (fun _ _ => .uses) hq
  · exact exists_houses haugmentations (fun _ ha => .top ha) (fun _ _ => .augmentation) hq

/-! ## Written nodes -/

/-- The node says of its name, its merging and its origin what the record says. -/
structure Echoes (r : NodeDraft) (n : Node) : Prop where
  name : n.name = r.name
  augmenting : n.facts.augmenting = r.facts.augmenting
  origin : n.origin.isSome = r.origin.isSome

/-- A shorthand case says what the node in it says. -/
theorem NodeSnapshot.exists_written (h : d.NodeSnapshot i n) (hd : d.Sound) :
    ∃ j, d.Under (.node j) (.node i) ∧ (d.node j).kind ≠ .caseNode true ∧ Echoes (d.node j) n := by
  induction hn : sizeOf n using Nat.strong_induction_on generalizing i n with
  | _ size ih =>
    subst hn
    cases hk : (d.node i).kind.isShorthandCase with
    | false =>
      obtain ⟨hfacts, -, horigin⟩ := h.of_not_shorthand hk
      refine ⟨i, .refl _, fun hcase => ?_, congrArg NodeFacts.name hfacts,
        congrArg NodeFacts.augmenting hfacts, ?_⟩
      · rw [NodeKind.isShorthandCase_iff.2 hcase] at hk
        cases hk
      · generalize (d.node i).origin = o at horigin
        generalize n.origin = o' at horigin
        cases horigin <;> rfl
    | true =>
      obtain ⟨c, rest, child, _, hchildren, hchild, rfl⟩ := h.of_shorthand hk
      have hc : c ∈ d.childrenOf (.node i) := by
        show c ∈ (d.node i).children
        rw [hchildren]
        exact List.mem_cons_self
      obtain ⟨j, hj, hkind, hname, haugmenting, horigin⟩ :=
        ih _ (Node.sizeOf_lt_of_mem_children List.mem_cons_self) hchild rfl
      exact ⟨j, hj.trans (hd.under_of_mem (.refl _) hc), hkind, hname, haugmenting,
        (Option.isSome_map ..).trans horigin⟩

end Draft

end YangSchema
