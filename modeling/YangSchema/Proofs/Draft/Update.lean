import YangSchema.Draft.Lookup
import YangSchema.Proofs.Draft.Outcome

/-!
# Drafts after an edit

As long as no snapshot is taken (`Unfrozen`) the basic edits succeed.  Each of them has a function on
drafts that says which draft it leaves (`mapNode`, `mapChildren`, …), and what is read from that
draft is told by one equation for each reader.
-/

namespace YangSchema

theorem Shelf.read_of_size_le {ρ σ : Type} [Inhabited ρ] {s : Shelf ρ σ} {i : Nat}
    (h : s.size ≤ i) : s.read i = default := by
  unfold Shelf.read
  rw [Array.getElem?_eq_none h]
  rfl

namespace Draft

variable {d : Draft}

/-! ## Readers -/

/-- The uses that stand at a site. -/
def usesAt (d : Draft) : Site → List UsesId
  | .module i => (d.module i).uses
  | .node i => (d.node i).uses
  | .grouping i => (d.grouping i).uses
  | .augment i => (d.augment i).uses

/-- Whether there is such a site. -/
def HasSite (d : Draft) : Site → Prop
  | .module i => i.index < d.modules.size
  | .node i => i.index < d.nodes.size
  | .grouping i => i.index < d.groupings.size
  | .augment i => i.index < d.augments.size

/-- No snapshot is taken. -/
structure Unfrozen (d : Draft) : Prop where
  nodes : ∀ i, d.nodes.isFrozen i = false
  groupings : ∀ i, d.groupings.isFrozen i = false
  uses : ∀ i, d.uses.isFrozen i = false
  augments : ∀ i, d.augments.isFrozen i = false
  modules : ∀ i, d.modules.isFrozen i = false

/-! ### Where there is nothing -/

theorem node_of_size_le {i : NodeId} (h : d.nodes.size ≤ i.index) : d.node i = default :=
  Shelf.read_of_size_le h

theorem grouping_of_size_le {i : GroupingId} (h : d.groupings.size ≤ i.index) :
    d.grouping i = default := Shelf.read_of_size_le h

theorem usesOf_of_size_le {i : UsesId} (h : d.uses.size ≤ i.index) : d.usesOf i = default :=
  Shelf.read_of_size_le h

theorem augment_of_size_le {i : AugmentId} (h : d.augments.size ≤ i.index) :
    d.augment i = default := Shelf.read_of_size_le h

theorem module_of_size_le {i : ModuleId} (h : d.modules.size ≤ i.index) : d.module i = default :=
  Shelf.read_of_size_le h

theorem childrenOf_of_not_hasSite {s : Site} (h : ¬ d.HasSite s) : d.childrenOf s = [] := by
  cases s with
  | module i => show (d.module i).children = []; rw [module_of_size_le (Nat.not_lt.1 h)]; rfl
  | node i => show (d.node i).children = []; rw [node_of_size_le (Nat.not_lt.1 h)]; rfl
  | grouping i => show (d.grouping i).children = []; rw [grouping_of_size_le (Nat.not_lt.1 h)]; rfl
  | augment i => show (d.augment i).children = []; rw [augment_of_size_le (Nat.not_lt.1 h)]; rfl

theorem usesAt_of_not_hasSite {s : Site} (h : ¬ d.HasSite s) : d.usesAt s = [] := by
  cases s with
  | module i => show (d.module i).uses = []; rw [module_of_size_le (Nat.not_lt.1 h)]; rfl
  | node i => show (d.node i).uses = []; rw [node_of_size_le (Nat.not_lt.1 h)]; rfl
  | grouping i => show (d.grouping i).uses = []; rw [grouping_of_size_le (Nat.not_lt.1 h)]; rfl
  | augment i => show (d.augment i).uses = []; rw [augment_of_size_le (Nat.not_lt.1 h)]; rfl

theorem hasSite_of_mem_childrenOf {s : Site} {c : NodeId} (h : c ∈ d.childrenOf s) :
    d.HasSite s := by
  refine Classical.not_not.1 fun hs => ?_
  rw [childrenOf_of_not_hasSite hs] at h
  cases h

theorem hasSite_of_mem_usesAt {s : Site} {u : UsesId} (h : u ∈ d.usesAt s) : d.HasSite s := by
  refine Classical.not_not.1 fun hs => ?_
  rw [usesAt_of_not_hasSite hs] at h
  cases h

/-! ## Writers -/

def mapNode (d : Draft) (i : NodeId) (f : NodeDraft → NodeDraft) : Draft :=
  { d with nodes := d.nodes.update i.index f }

def mapGrouping (d : Draft) (i : GroupingId) (f : GroupingDraft → GroupingDraft) : Draft :=
  { d with groupings := d.groupings.update i.index f }

def mapUses (d : Draft) (i : UsesId) (f : UsesDraft → UsesDraft) : Draft :=
  { d with uses := d.uses.update i.index f }

def mapAugment (d : Draft) (i : AugmentId) (f : AugmentDraft → AugmentDraft) : Draft :=
  { d with augments := d.augments.update i.index f }

def mapModule (d : Draft) (i : ModuleId) (f : ModuleDraft → ModuleDraft) : Draft :=
  { d with modules := d.modules.update i.index f }

/-- The draft with another child list at a site. -/
def mapChildren (d : Draft) (s : Site) (f : List NodeId → List NodeId) : Draft :=
  match s with
  | .module i => d.mapModule i fun r => { r with children := f r.children }
  | .node i => d.mapNode i fun r => { r with children := f r.children }
  | .grouping i => d.mapGrouping i fun r => { r with children := f r.children }
  | .augment i => d.mapAugment i fun r => { r with children := f r.children }

/-- The draft with one more uses at a site. -/
def pushedUses (d : Draft) (s : Site) (u : UsesId) : Draft :=
  match s with
  | .module i => d.mapModule i fun r => { r with uses := r.uses ++ [u] }
  | .node i => d.mapNode i fun r => { r with uses := r.uses ++ [u] }
  | .grouping i => d.mapGrouping i fun r => { r with uses := r.uses ++ [u] }
  | .augment i => d.mapAugment i fun r => { r with uses := r.uses ++ [u] }

def withNode (d : Draft) (r : NodeDraft) : Draft := { d with nodes := d.nodes.push r }
def withGrouping (d : Draft) (r : GroupingDraft) : Draft := { d with groupings := d.groupings.push r }
def withUses (d : Draft) (r : UsesDraft) : Draft := { d with uses := d.uses.push r }
def withAugment (d : Draft) (r : AugmentDraft) : Draft := { d with augments := d.augments.push r }
def withModule (d : Draft) (r : ModuleDraft) : Draft := { d with modules := d.modules.push r }

/-! ## Unfrozen drafts stay unfrozen -/

namespace Unfrozen

theorem mapNode (h : d.Unfrozen) (i : NodeId) (f : NodeDraft → NodeDraft) :
    (d.mapNode i f).Unfrozen :=
  ⟨fun j => (Shelf.isFrozen_update ..).trans (h.nodes j), h.groupings, h.uses, h.augments, h.modules⟩

theorem mapGrouping (h : d.Unfrozen) (i : GroupingId) (f : GroupingDraft → GroupingDraft) :
    (d.mapGrouping i f).Unfrozen :=
  ⟨h.nodes, fun j => (Shelf.isFrozen_update ..).trans (h.groupings j), h.uses, h.augments, h.modules⟩

theorem mapUses (h : d.Unfrozen) (i : UsesId) (f : UsesDraft → UsesDraft) :
    (d.mapUses i f).Unfrozen :=
  ⟨h.nodes, h.groupings, fun j => (Shelf.isFrozen_update ..).trans (h.uses j), h.augments, h.modules⟩

theorem mapAugment (h : d.Unfrozen) (i : AugmentId) (f : AugmentDraft → AugmentDraft) :
    (d.mapAugment i f).Unfrozen :=
  ⟨h.nodes, h.groupings, h.uses, fun j => (Shelf.isFrozen_update ..).trans (h.augments j), h.modules⟩

theorem mapModule (h : d.Unfrozen) (i : ModuleId) (f : ModuleDraft → ModuleDraft) :
    (d.mapModule i f).Unfrozen :=
  ⟨h.nodes, h.groupings, h.uses, h.augments, fun j => (Shelf.isFrozen_update ..).trans (h.modules j)⟩

theorem mapChildren (h : d.Unfrozen) (s : Site) (f : List NodeId → List NodeId) :
    (d.mapChildren s f).Unfrozen := by
  cases s with
  | module i => exact h.mapModule _ _
  | node i => exact h.mapNode _ _
  | grouping i => exact h.mapGrouping _ _
  | augment i => exact h.mapAugment _ _

theorem pushedUses (h : d.Unfrozen) (s : Site) (u : UsesId) : (d.pushedUses s u).Unfrozen := by
  cases s with
  | module i => exact h.mapModule _ _
  | node i => exact h.mapNode _ _
  | grouping i => exact h.mapGrouping _ _
  | augment i => exact h.mapAugment _ _

theorem withNode (h : d.Unfrozen) (r : NodeDraft) : (d.withNode r).Unfrozen :=
  ⟨fun j => (Shelf.isFrozen_push ..).trans (h.nodes j), h.groupings, h.uses, h.augments, h.modules⟩

theorem withGrouping (h : d.Unfrozen) (r : GroupingDraft) : (d.withGrouping r).Unfrozen :=
  ⟨h.nodes, fun j => (Shelf.isFrozen_push ..).trans (h.groupings j), h.uses, h.augments, h.modules⟩

theorem withUses (h : d.Unfrozen) (r : UsesDraft) : (d.withUses r).Unfrozen :=
  ⟨h.nodes, h.groupings, fun j => (Shelf.isFrozen_push ..).trans (h.uses j), h.augments, h.modules⟩

theorem withAugment (h : d.Unfrozen) (r : AugmentDraft) : (d.withAugment r).Unfrozen :=
  ⟨h.nodes, h.groupings, h.uses, fun j => (Shelf.isFrozen_push ..).trans (h.augments j), h.modules⟩

theorem withModule (h : d.Unfrozen) (r : ModuleDraft) : (d.withModule r).Unfrozen :=
  ⟨h.nodes, h.groupings, h.uses, h.augments, fun j => (Shelf.isFrozen_push ..).trans (h.modules j)⟩

end Unfrozen

/-! ## Edits of unfrozen drafts -/

section Edits

open Edit

variable {Q : Unit → Draft → Prop} {E : Fault → Draft → Prop}

theorem ends_requireOpen (id : String) : Ends (requireOpen false id) d Q E ↔ Q () d := Iff.rfl

theorem ends_editNode (h : d.Unfrozen) (i : NodeId) (f : NodeDraft → NodeDraft) :
    Ends (editNode i f) d Q E ↔ Q () (d.mapNode i f) := by
  unfold Ends
  rw [perform_editNode, h.nodes]
  rfl

theorem ends_editGrouping (h : d.Unfrozen) (i : GroupingId) (f : GroupingDraft → GroupingDraft) :
    Ends (editGrouping i f) d Q E ↔ Q () (d.mapGrouping i f) := by
  unfold Ends
  rw [perform_editGrouping, h.groupings]
  rfl

theorem ends_editUses (h : d.Unfrozen) (i : UsesId) (f : UsesDraft → UsesDraft) :
    Ends (editUses i f) d Q E ↔ Q () (d.mapUses i f) := by
  unfold Ends
  rw [perform_editUses, h.uses]
  rfl

theorem ends_editAugment (h : d.Unfrozen) (i : AugmentId) (f : AugmentDraft → AugmentDraft) :
    Ends (editAugment i f) d Q E ↔ Q () (d.mapAugment i f) := by
  unfold Ends
  rw [perform_editAugment, h.augments]
  rfl

theorem ends_editModule (h : d.Unfrozen) (i : ModuleId) (f : ModuleDraft → ModuleDraft) :
    Ends (editModule i f) d Q E ↔ Q () (d.mapModule i f) := by
  unfold Ends
  rw [perform_editModule, h.modules]
  rfl

theorem ends_editChildren (h : d.Unfrozen) (s : Site) (f : List NodeId → List NodeId) :
    Ends (editChildren s f) d Q E ↔ Q () (d.mapChildren s f) := by
  cases s with
  | module i => exact ends_editModule h _ _
  | node i => exact ends_editNode h _ _
  | grouping i => exact ends_editGrouping h _ _
  | augment i => exact ends_editAugment h _ _

theorem ends_pushUses (h : d.Unfrozen) (s : Site) (u : UsesId) :
    Ends (pushUses s u) d Q E ↔ Q () (d.pushedUses s u) := by
  cases s with
  | module i => exact ends_editModule h _ _
  | node i => exact ends_editNode h _ _
  | grouping i => exact ends_editGrouping h _ _
  | augment i => exact ends_editAugment h _ _

theorem ends_addNode {Q : NodeId → Draft → Prop} (r : NodeDraft) :
    Ends (addNode r) d Q E ↔ Q ⟨d.nodes.size⟩ (d.withNode r) := Iff.rfl

theorem ends_addGrouping {Q : GroupingId → Draft → Prop} (r : GroupingDraft) :
    Ends (addGrouping r) d Q E ↔ Q ⟨d.groupings.size⟩ (d.withGrouping r) := Iff.rfl

theorem ends_addUses {Q : UsesId → Draft → Prop} (r : UsesDraft) :
    Ends (addUses r) d Q E ↔ Q ⟨d.uses.size⟩ (d.withUses r) := Iff.rfl

theorem ends_addAugment {Q : AugmentId → Draft → Prop} (r : AugmentDraft) :
    Ends (addAugment r) d Q E ↔ Q ⟨d.augments.size⟩ (d.withAugment r) := Iff.rfl

end Edits

/-! ## What is read after a write -/

theorem node_mapNode (i j : NodeId) (f : NodeDraft → NodeDraft) :
    (d.mapNode i f).node j = if i = j ∧ j.index < d.nodes.size then f (d.node j) else d.node j := by
  have h : i = j ↔ i.index = j.index := by cases i; cases j; simp
  simp only [h]
  exact Shelf.read_update _ _ _ _

theorem grouping_mapGrouping (i j : GroupingId) (f : GroupingDraft → GroupingDraft) :
    (d.mapGrouping i f).grouping j =
      if i = j ∧ j.index < d.groupings.size then f (d.grouping j) else d.grouping j := by
  have h : i = j ↔ i.index = j.index := by cases i; cases j; simp
  simp only [h]
  exact Shelf.read_update _ _ _ _

theorem usesOf_mapUses (i j : UsesId) (f : UsesDraft → UsesDraft) :
    (d.mapUses i f).usesOf j =
      if i = j ∧ j.index < d.uses.size then f (d.usesOf j) else d.usesOf j := by
  have h : i = j ↔ i.index = j.index := by cases i; cases j; simp
  simp only [h]
  exact Shelf.read_update _ _ _ _

theorem childrenOf_mapUses (u : UsesId) (f : UsesDraft → UsesDraft) (s : Site) :
    (d.mapUses u f).childrenOf s = d.childrenOf s := by cases s <;> rfl

theorem usesAt_mapUses (u : UsesId) (f : UsesDraft → UsesDraft) (s : Site) :
    (d.mapUses u f).usesAt s = d.usesAt s := by cases s <;> rfl

theorem augment_mapAugment (i j : AugmentId) (f : AugmentDraft → AugmentDraft) :
    (d.mapAugment i f).augment j =
      if i = j ∧ j.index < d.augments.size then f (d.augment j) else d.augment j := by
  have h : i = j ↔ i.index = j.index := by cases i; cases j; simp
  simp only [h]
  exact Shelf.read_update _ _ _ _

theorem module_mapModule (i j : ModuleId) (f : ModuleDraft → ModuleDraft) :
    (d.mapModule i f).module j =
      if i = j ∧ j.index < d.modules.size then f (d.module j) else d.module j := by
  have h : i = j ↔ i.index = j.index := by cases i; cases j; simp
  simp only [h]
  exact Shelf.read_update _ _ _ _

theorem node_mapNode_self {i : NodeId} (h : i.index < d.nodes.size) (f : NodeDraft → NodeDraft) :
    (d.mapNode i f).node i = f (d.node i) := by
  rw [node_mapNode, if_pos ⟨rfl, h⟩]

theorem node_mapNode_of_ne {i j : NodeId} (h : i ≠ j) (f : NodeDraft → NodeDraft) :
    (d.mapNode i f).node j = d.node j := by
  rw [node_mapNode, if_neg fun hij => h hij.1]

theorem node_withNode (r : NodeDraft) (i : NodeId) :
    (d.withNode r).node i = if i.index = d.nodes.size then r else d.node i :=
  Shelf.read_push _ _ _

theorem grouping_withGrouping (r : GroupingDraft) (i : GroupingId) :
    (d.withGrouping r).grouping i = if i.index = d.groupings.size then r else d.grouping i :=
  Shelf.read_push _ _ _

theorem usesOf_withUses (r : UsesDraft) (i : UsesId) :
    (d.withUses r).usesOf i = if i.index = d.uses.size then r else d.usesOf i :=
  Shelf.read_push _ _ _

theorem augment_withAugment (r : AugmentDraft) (i : AugmentId) :
    (d.withAugment r).augment i = if i.index = d.augments.size then r else d.augment i :=
  Shelf.read_push _ _ _

theorem module_withModule (r : ModuleDraft) (i : ModuleId) :
    (d.withModule r).module i = if i.index = d.modules.size then r else d.module i :=
  Shelf.read_push _ _ _

theorem node_withNode_self (r : NodeDraft) : (d.withNode r).node ⟨d.nodes.size⟩ = r := by
  rw [node_withNode, if_pos rfl]

theorem lt_withNode (r : NodeDraft) : (⟨d.nodes.size⟩ : NodeId).index < (d.withNode r).nodes.size :=
  Shelf.lt_size_push _ _

theorem grouping_withGrouping_self (r : GroupingDraft) :
    (d.withGrouping r).grouping ⟨d.groupings.size⟩ = r := by
  rw [grouping_withGrouping, if_pos rfl]

theorem usesOf_withUses_self (r : UsesDraft) : (d.withUses r).usesOf ⟨d.uses.size⟩ = r := by
  rw [usesOf_withUses, if_pos rfl]

theorem augment_withAugment_self (r : AugmentDraft) :
    (d.withAugment r).augment ⟨d.augments.size⟩ = r := by
  rw [augment_withAugment, if_pos rfl]

theorem module_withModule_self (r : ModuleDraft) :
    (d.withModule r).module ⟨d.modules.size⟩ = r := by
  rw [module_withModule, if_pos rfl]

/-! ### A change of children -/

theorem childrenOf_mapChildren_self {s : Site} (h : d.HasSite s) (f : List NodeId → List NodeId) :
    (d.mapChildren s f).childrenOf s = f (d.childrenOf s) := by
  cases s with
  | module i => show ((d.mapModule i _).module i).children = _; rw [module_mapModule, if_pos ⟨rfl, h⟩]; rfl
  | node i => show ((d.mapNode i _).node i).children = _; rw [node_mapNode, if_pos ⟨rfl, h⟩]; rfl
  | grouping i =>
    show ((d.mapGrouping i _).grouping i).children = _
    rw [grouping_mapGrouping, if_pos ⟨rfl, h⟩]; rfl
  | augment i =>
    show ((d.mapAugment i _).augment i).children = _
    rw [augment_mapAugment, if_pos ⟨rfl, h⟩]; rfl

theorem childrenOf_mapChildren_of_ne {s t : Site} (h : s ≠ t) (f : List NodeId → List NodeId) :
    (d.mapChildren s f).childrenOf t = d.childrenOf t := by
  cases s <;> cases t <;> try rfl
  · show ((d.mapModule _ _).module _).children = _
    rw [module_mapModule, if_neg fun hij => h (by rw [hij.1])]; rfl
  · show ((d.mapNode _ _).node _).children = _
    rw [node_mapNode, if_neg fun hij => h (by rw [hij.1])]; rfl
  · show ((d.mapGrouping _ _).grouping _).children = _
    rw [grouping_mapGrouping, if_neg fun hij => h (by rw [hij.1])]; rfl
  · show ((d.mapAugment _ _).augment _).children = _
    rw [augment_mapAugment, if_neg fun hij => h (by rw [hij.1])]; rfl

/-- A node after a change of the children at a site. -/
theorem node_mapChildren (s : Site) (f : List NodeId → List NodeId) (i : NodeId) :
    (d.mapChildren s f).node i =
      { d.node i with children := (d.mapChildren s f).childrenOf (.node i) } := by
  cases s with
  | node j =>
    simp only [mapChildren, childrenOf]
    rw [node_mapNode]
    split <;> rfl
  | _ => rfl

theorem usesAt_mapChildren (s t : Site) (f : List NodeId → List NodeId) :
    (d.mapChildren s f).usesAt t = d.usesAt t := by
  cases s <;> cases t <;> try rfl
  · show ((d.mapModule _ _).module _).uses = _
    rw [module_mapModule]; split <;> rfl
  · show ((d.mapNode _ _).node _).uses = _
    rw [node_mapNode]; split <;> rfl
  · show ((d.mapGrouping _ _).grouping _).uses = _
    rw [grouping_mapGrouping]; split <;> rfl
  · show ((d.mapAugment _ _).augment _).uses = _
    rw [augment_mapAugment]; split <;> rfl

theorem grouping_mapChildren (s : Site) (f : List NodeId → List NodeId) (i : GroupingId) :
    (d.mapChildren s f).grouping i =
      { d.grouping i with children := (d.mapChildren s f).childrenOf (.grouping i) } := by
  cases s with
  | grouping j =>
    simp only [mapChildren, childrenOf]
    rw [grouping_mapGrouping]
    split <;> rfl
  | _ => rfl

theorem augment_mapChildren (s : Site) (f : List NodeId → List NodeId) (i : AugmentId) :
    (d.mapChildren s f).augment i =
      { d.augment i with children := (d.mapChildren s f).childrenOf (.augment i) } := by
  cases s with
  | augment j =>
    simp only [mapChildren, childrenOf]
    rw [augment_mapAugment]
    split <;> rfl
  | _ => rfl

theorem module_mapChildren (s : Site) (f : List NodeId → List NodeId) (i : ModuleId) :
    (d.mapChildren s f).module i =
      { d.module i with children := (d.mapChildren s f).childrenOf (.module i) } := by
  cases s with
  | module j =>
    simp only [mapChildren, childrenOf]
    rw [module_mapModule]
    split <;> rfl
  | _ => rfl

/-! ### One more uses -/

theorem usesAt_pushedUses_self {s : Site} (h : d.HasSite s) (u : UsesId) :
    (d.pushedUses s u).usesAt s = d.usesAt s ++ [u] := by
  cases s with
  | module i => show ((d.mapModule i _).module i).uses = _; rw [module_mapModule, if_pos ⟨rfl, h⟩]; rfl
  | node i => show ((d.mapNode i _).node i).uses = _; rw [node_mapNode, if_pos ⟨rfl, h⟩]; rfl
  | grouping i =>
    show ((d.mapGrouping i _).grouping i).uses = _
    rw [grouping_mapGrouping, if_pos ⟨rfl, h⟩]; rfl
  | augment i =>
    show ((d.mapAugment i _).augment i).uses = _
    rw [augment_mapAugment, if_pos ⟨rfl, h⟩]; rfl

theorem usesAt_pushedUses_of_ne {s t : Site} (h : s ≠ t) (u : UsesId) :
    (d.pushedUses s u).usesAt t = d.usesAt t := by
  cases s <;> cases t <;> try rfl
  · show ((d.mapModule _ _).module _).uses = _
    rw [module_mapModule, if_neg fun hij => h (by rw [hij.1])]; rfl
  · show ((d.mapNode _ _).node _).uses = _
    rw [node_mapNode, if_neg fun hij => h (by rw [hij.1])]; rfl
  · show ((d.mapGrouping _ _).grouping _).uses = _
    rw [grouping_mapGrouping, if_neg fun hij => h (by rw [hij.1])]; rfl
  · show ((d.mapAugment _ _).augment _).uses = _
    rw [augment_mapAugment, if_neg fun hij => h (by rw [hij.1])]; rfl

theorem usesAt_prefix_pushedUses (s t : Site) (u : UsesId) :
    d.usesAt t <+: (d.pushedUses s u).usesAt t := by
  by_cases h : s = t
  · subst h
    by_cases hs : d.HasSite s
    · rw [usesAt_pushedUses_self hs]
      exact List.prefix_append _ _
    · rw [usesAt_of_not_hasSite hs]
      exact List.nil_prefix
  · exact (usesAt_pushedUses_of_ne h u).symm ▸ List.prefix_refl _

theorem node_pushedUses (s : Site) (u : UsesId) (i : NodeId) :
    (d.pushedUses s u).node i = { d.node i with uses := (d.pushedUses s u).usesAt (.node i) } := by
  cases s with
  | node j =>
    simp only [pushedUses, usesAt]
    rw [node_mapNode]
    split <;> rfl
  | _ => rfl

theorem grouping_pushedUses (s : Site) (u : UsesId) (i : GroupingId) :
    (d.pushedUses s u).grouping i =
      { d.grouping i with uses := (d.pushedUses s u).usesAt (.grouping i) } := by
  cases s with
  | grouping j =>
    simp only [pushedUses, usesAt]
    rw [grouping_mapGrouping]
    split <;> rfl
  | _ => rfl

theorem augment_pushedUses (s : Site) (u : UsesId) (i : AugmentId) :
    (d.pushedUses s u).augment i =
      { d.augment i with uses := (d.pushedUses s u).usesAt (.augment i) } := by
  cases s with
  | augment j =>
    simp only [pushedUses, usesAt]
    rw [augment_mapAugment]
    split <;> rfl
  | _ => rfl

theorem module_pushedUses (s : Site) (u : UsesId) (i : ModuleId) :
    (d.pushedUses s u).module i =
      { d.module i with uses := (d.pushedUses s u).usesAt (.module i) } := by
  cases s with
  | module j =>
    simp only [pushedUses, usesAt]
    rw [module_mapModule]
    split <;> rfl
  | _ => rfl

theorem childrenOf_pushedUses (s t : Site) (u : UsesId) :
    (d.pushedUses s u).childrenOf t = d.childrenOf t := by
  cases t with
  | module i => simp only [childrenOf, module_pushedUses]
  | node i => simp only [childrenOf, node_pushedUses]
  | grouping i => simp only [childrenOf, grouping_pushedUses]
  | augment i => simp only [childrenOf, augment_pushedUses]

/-! ### Sizes -/

theorem sizes_pushedUses (s : Site) (u : UsesId) :
    (d.pushedUses s u).nodes.size = d.nodes.size ∧
      (d.pushedUses s u).groupings.size = d.groupings.size ∧
      (d.pushedUses s u).uses = d.uses ∧
      (d.pushedUses s u).augments.size = d.augments.size ∧
      (d.pushedUses s u).modules.size = d.modules.size := by
  cases s <;>
    simp [pushedUses, mapModule, mapNode, mapGrouping, mapAugment]

/-- A change of children adds and removes no records. -/
theorem sizes_mapChildren (s : Site) (f : List NodeId → List NodeId) :
    (d.mapChildren s f).nodes.size = d.nodes.size ∧
      (d.mapChildren s f).groupings.size = d.groupings.size ∧
      (d.mapChildren s f).uses = d.uses ∧
      (d.mapChildren s f).augments.size = d.augments.size ∧
      (d.mapChildren s f).modules.size = d.modules.size := by
  cases s <;>
    simp [mapChildren, mapModule, mapNode, mapGrouping, mapAugment]

end Draft

end YangSchema
