import Mathlib.Data.List.Find
import YangSchema.Proofs.Draft.Copying

/-!
# What an edit leaves alone

A draft only ever grows: the definitions that are there keep their names, kinds, parents and paths,
and the lists of children and uses grow at the end (`Keeps`).  So whatever `descend` finds it finds again
(`Keeps.descend`).  Most edits stay at and below one site (`Changes`); an edit that is `Quiet`
changes no child list.
-/

namespace YangSchema

/-- What is known of a module before anything in its sources is declared. -/
def ModuleFacts.heading (f : ModuleFacts) : ModuleFacts where
  name := f.name
  identity := f.identity
  ownPrefix := f.ownPrefix
  header := f.header
  imports := f.imports
  submodules := f.submodules

theorem ModuleFacts.identity_of_heading {f g : ModuleFacts} (h : f.heading = g.heading) :
    f.identity = g.identity := by
  have hidentity := congrArg ModuleFacts.identity h
  exact hidentity

namespace Draft

variable {d d₁ d₂ : Draft} {s x : Site}

/-! ## Growing drafts -/

/-- What is fixed for the records of `d` is the same in `d₁`. -/
structure Keeps (d d₁ : Draft) : Prop where
  nodes_le : d.nodes.size ≤ d₁.nodes.size
  groupings_le : d.groupings.size ≤ d₁.groupings.size
  uses_le : d.uses.size ≤ d₁.uses.size
  augments_le : d.augments.size ≤ d₁.augments.size
  modules_le : d.modules.size ≤ d₁.modules.size
  name : ∀ i, i.index < d.nodes.size → (d₁.node i).name = (d.node i).name
  kind : ∀ i, i.index < d.nodes.size → (d₁.node i).kind = (d.node i).kind
  path : ∀ i, i.index < d.nodes.size → (d₁.node i).path = (d.node i).path
  parent : ∀ i, i.index < d.nodes.size → (d₁.node i).parent = (d.node i).parent
  origin : ∀ i, i.index < d.nodes.size → (d₁.node i).origin = (d.node i).origin
  augmenting : ∀ i, i.index < d.nodes.size →
    (d₁.node i).facts.augmenting = (d.node i).facts.augmenting
  children : ∀ t, d.HasSite t → d.childrenOf t <+: d₁.childrenOf t
  usesAt : ∀ t, d.HasSite t → d.usesAt t <+: d₁.usesAt t
  grouping : ∀ g, g.index < d.groupings.size → (d₁.grouping g).facts.name = (d.grouping g).facts.name
  grouping_path : ∀ g, g.index < d.groupings.size →
    (d₁.grouping g).facts.path = (d.grouping g).facts.path
  target : ∀ a, a.index < d.augments.size → (d₁.augment a).facts.target = (d.augment a).facts.target
  home : ∀ a, a.index < d.augments.size → (d₁.augment a).facts.home = (d.augment a).facts.home
  order : ∀ a, a.index < d.augments.size → (d₁.augment a).facts.order = (d.augment a).facts.order
  heading : ∀ m, m.index < d.modules.size →
    (d₁.module m).facts.heading = (d.module m).facts.heading

namespace Keeps

theorem refl (d : Draft) : d.Keeps d where
  nodes_le := Nat.le_refl _
  groupings_le := Nat.le_refl _
  uses_le := Nat.le_refl _
  augments_le := Nat.le_refl _
  modules_le := Nat.le_refl _
  name _ _ := rfl
  kind _ _ := rfl
  path _ _ := rfl
  parent _ _ := rfl
  origin _ _ := rfl
  augmenting _ _ := rfl
  children _ _ := List.prefix_refl _
  usesAt _ _ := List.prefix_refl _
  grouping _ _ := rfl
  grouping_path _ _ := rfl
  target _ _ := rfl
  home _ _ := rfl
  order _ _ := rfl
  heading _ _ := rfl

theorem hasSite (h : d.Keeps d₁) (hs : d.HasSite s) : d₁.HasSite s := by
  cases s with
  | module i => exact Nat.lt_of_lt_of_le hs h.modules_le
  | node i => exact Nat.lt_of_lt_of_le hs h.nodes_le
  | grouping i => exact Nat.lt_of_lt_of_le hs h.groupings_le
  | augment i => exact Nat.lt_of_lt_of_le hs h.augments_le

theorem isChoice (h : d.Keeps d₁) (hs : d.HasSite s) : d₁.isChoice s = d.isChoice s :=
  isChoice_congr h.kind hs

theorem trans (h : d.Keeps d₁) (h' : d₁.Keeps d₂) : d.Keeps d₂ where
  nodes_le := Nat.le_trans h.nodes_le h'.nodes_le
  groupings_le := Nat.le_trans h.groupings_le h'.groupings_le
  uses_le := Nat.le_trans h.uses_le h'.uses_le
  augments_le := Nat.le_trans h.augments_le h'.augments_le
  modules_le := Nat.le_trans h.modules_le h'.modules_le
  name i hi := (h'.name i (Nat.lt_of_lt_of_le hi h.nodes_le)).trans (h.name i hi)
  kind i hi := (h'.kind i (Nat.lt_of_lt_of_le hi h.nodes_le)).trans (h.kind i hi)
  path i hi := (h'.path i (Nat.lt_of_lt_of_le hi h.nodes_le)).trans (h.path i hi)
  parent i hi := (h'.parent i (Nat.lt_of_lt_of_le hi h.nodes_le)).trans (h.parent i hi)
  origin i hi := (h'.origin i (Nat.lt_of_lt_of_le hi h.nodes_le)).trans (h.origin i hi)
  augmenting i hi :=
    (h'.augmenting i (Nat.lt_of_lt_of_le hi h.nodes_le)).trans (h.augmenting i hi)
  children t ht := (h.children t ht).trans (h'.children t (h.hasSite ht))
  usesAt t ht := (h.usesAt t ht).trans (h'.usesAt t (h.hasSite ht))
  grouping g hg := (h'.grouping g (Nat.lt_of_lt_of_le hg h.groupings_le)).trans (h.grouping g hg)
  grouping_path g hg :=
    (h'.grouping_path g (Nat.lt_of_lt_of_le hg h.groupings_le)).trans (h.grouping_path g hg)
  target a ha := (h'.target a (Nat.lt_of_lt_of_le ha h.augments_le)).trans (h.target a ha)
  home a ha := (h'.home a (Nat.lt_of_lt_of_le ha h.augments_le)).trans (h.home a ha)
  order a ha := (h'.order a (Nat.lt_of_lt_of_le ha h.augments_le)).trans (h.order a ha)
  heading m hm := (h'.heading m (Nat.lt_of_lt_of_le hm h.modules_le)).trans (h.heading m hm)

theorem of_extends (h : d.Extends d₁) : d.Keeps d₁ where
  nodes_le := h.nodes_le
  groupings_le := Nat.le_of_eq h.groupings_size.symm
  uses_le := h.uses_le
  augments_le := h.augments_le
  modules_le := Nat.le_of_eq h.modules_size.symm
  name i hi := by rw [h.node i hi]
  kind i hi := by rw [h.node i hi]
  path i hi := by rw [h.node i hi]
  parent i hi := by rw [h.node i hi]
  origin i hi := by rw [h.node i hi]
  augmenting i hi := by rw [h.node i hi]
  children t ht := by rw [h.childrenOf ht]
  usesAt t ht := by rw [h.usesAt ht]
  grouping g _ := by rw [h.grouping g]
  grouping_path g _ := by rw [h.grouping g]
  target a ha := by rw [h.augment a ha]
  home a ha := by rw [h.augment a ha]
  order a ha := by rw [h.augment a ha]
  heading m _ := by rw [h.module m]

/-- New uses may stand anywhere. -/
theorem pushedUses (he : d.Extends d₁) (s : Site) (u : UsesId) : d.Keeps (d₁.pushedUses s u) := by
  obtain ⟨hnodes, hgroupings, huses, haugments, hmodules⟩ := d₁.sizes_pushedUses s u
  have hnode : ∀ {α : Type} (g : NodeDraft → α), (∀ r us, g { r with uses := us } = g r) →
      ∀ i, i.index < d.nodes.size → g ((d₁.pushedUses s u).node i) = g (d.node i) := by
    intro α g hg i hi
    rw [node_pushedUses, hg, he.node i hi]
  exact {
    nodes_le := by rw [hnodes]; exact he.nodes_le
    groupings_le := by rw [hgroupings, he.groupings_size]
    uses_le := by rw [huses]; exact he.uses_le
    augments_le := by rw [haugments]; exact he.augments_le
    modules_le := by rw [hmodules, he.modules_size]
    name := hnode NodeDraft.name fun _ _ => rfl
    kind := hnode NodeDraft.kind fun _ _ => rfl
    path := hnode NodeDraft.path fun _ _ => rfl
    parent := hnode NodeDraft.parent fun _ _ => rfl
    origin := hnode NodeDraft.origin fun _ _ => rfl
    augmenting := hnode (fun r => r.facts.augmenting) fun _ _ => rfl
    children := fun t ht => by rw [childrenOf_pushedUses, he.childrenOf ht]
    usesAt := fun t ht => he.usesAt ht ▸ usesAt_prefix_pushedUses s t u
    grouping := fun g _ => by rw [grouping_pushedUses, he.grouping]
    grouping_path := fun g _ => by rw [grouping_pushedUses, he.grouping]
    target := fun a ha => by rw [augment_pushedUses, he.augment a ha]
    home := fun a ha => by rw [augment_pushedUses, he.augment a ha]
    order := fun a ha => by rw [augment_pushedUses, he.augment a ha]
    heading := fun m _ => by rw [module_pushedUses, he.module] }

theorem identity (h : d.Keeps d₁) (m : ModuleId) (hm : m.index < d.modules.size) :
    (d₁.module m).facts.identity = (d.module m).facts.identity :=
  ModuleFacts.identity_of_heading (h.heading m hm)

variable (hd : d.Sound) (h : d.Keeps d₁)
include hd h

theorem under_iff (hx : d.HasSite x) : d₁.Under x s ↔ d.Under x s :=
  hd.under_iff_of_parent h.parent hx

/-- An old child was there before. -/
theorem mem_childrenOf {c : NodeId} (hd₁ : d₁.Sound) (hc : c ∈ d₁.childrenOf s)
    (hlt : c.index < d.nodes.size) : c ∈ d.childrenOf s := by
  rw [hd.parent_iff, ← h.parent c hlt]
  exact hd₁.parent_eq hc

theorem findChild {q : QName} {c : NodeId} (hc : d.findChild s q = some c) :
    d₁.findChild s q = some c := by
  obtain ⟨hmem, hname⟩ := findChild_eq_some hc
  have hs := hasSite_of_mem_childrenOf hmem
  obtain ⟨more, hmore⟩ := h.children s hs
  have hfind : (d.childrenOf s).find? (fun c => (d₁.node c).name == q) = some c := by
    rw [← hc]
    unfold Draft.findChild
    refine List.find?_congr fun x hx => ?_
    rw [h.name x (hd.child_lt hx)]
  unfold Draft.findChild
  rw [← hmore, List.find?_append, hfind]
  rfl

/-- What was found is found again. -/
theorem descend {p : List QName} (hp : d.descend s p = some x) : d₁.descend s p = some x := by
  induction p generalizing s with
  | nil => exact hp
  | cons q p ih =>
    obtain ⟨c, hc, hp⟩ := descend_cons.1 hp
    exact descend_cons.2 ⟨c, h.findChild hd hc, ih hp⟩

end Keeps

/-! ## Shorthand cases -/

/-- The shorthand case `i` holds `c`, the node that it was put around, before all others. -/
structure CaseOf (d : Draft) (i c : NodeId) : Prop where
  first : ∃ rest, d.childrenOf (.node i) = c :: rest
  name : (d.node c).name = (d.node i).name
  not_case : (d.node c).kind.isCase = false

theorem CaseOf.keeps {i c : NodeId} (h : d.CaseOf i c) (hd : d.Sound) (hk : d.Keeps d₁) :
    d₁.CaseOf i c := by
  obtain ⟨rest, hrest⟩ := h.first
  have hc : c ∈ d.childrenOf (.node i) := by rw [hrest]; exact List.mem_cons_self
  have hi : i.index < d.nodes.size := hasSite_of_mem_childrenOf hc
  have hlt := hd.child_lt hc
  obtain ⟨more, hmore⟩ := hk.children (.node i) hi
  refine ⟨⟨rest ++ more, ?_⟩, ?_, ?_⟩
  · rw [← hmore, hrest, List.cons_append]
  · rw [hk.name c hlt, hk.name i hi, h.name]
  · rw [hk.kind c hlt, h.not_case]

/-! ## Changes at a site -/

/-- `d₁` comes from `d` by changes at and below the site `s` and by new records. -/
structure Changes (s : Site) (d d₁ : Draft) : Prop where
  sound : d₁.Sound
  keeps : d.Keeps d₁
  groupings_size : d₁.groupings.size = d.groupings.size
  modules_size : d₁.modules.size = d.modules.size
  node : ∀ i, i.index < d.nodes.size → ¬ d.Under (.node i) s → d₁.node i = d.node i
  childrenOf : ∀ t, d.HasSite t → ¬ d.Under t s → d₁.childrenOf t = d.childrenOf t
  usesAt : ∀ t, d.HasSite t → ¬ d.Under t s → d₁.usesAt t = d.usesAt t
  augmentations : ∀ u, u.index < d.uses.size →
    (d₁.usesOf u).augmentations = (d.usesOf u).augmentations
  groupings : ∀ m, (d₁.module m).groupings = (d.module m).groupings
  tops : ∀ m, (d₁.module m).augmentations = (d.module m).augmentations

/-- Changes that leave all child lists alone. -/
structure Quiet (s : Site) (d d₁ : Draft) : Prop extends Changes s d d₁ where
  children_eq : ∀ t, d.HasSite t → d₁.childrenOf t = d.childrenOf t

namespace Changes

theorem trans (hd : d.Sound) (h : Changes s d d₁) (h' : Changes s d₁ d₂) : Changes s d d₂ where
  sound := h'.sound
  keeps := h.keeps.trans h'.keeps
  groupings_size := h'.groupings_size.trans h.groupings_size
  modules_size := h'.modules_size.trans h.modules_size
  node i hi hu := by
    have hi₁ : d₁.HasSite (.node i) := h.keeps.hasSite (s := .node i) hi
    rw [h'.node i hi₁ fun hu' => hu ((h.keeps.under_iff hd (x := .node i) hi).1 hu'), h.node i hi hu]
  childrenOf t ht hu := by
    rw [h'.childrenOf t (h.keeps.hasSite ht) fun hu' => hu ((h.keeps.under_iff hd ht).1 hu'),
      h.childrenOf t ht hu]
  usesAt t ht hu := by
    rw [h'.usesAt t (h.keeps.hasSite ht) fun hu' => hu ((h.keeps.under_iff hd ht).1 hu'),
      h.usesAt t ht hu]
  augmentations u hu := by
    rw [h'.augmentations u (Nat.lt_of_lt_of_le hu h.keeps.uses_le), h.augmentations u hu]
  groupings m := (h'.groupings m).trans (h.groupings m)
  tops m := (h'.tops m).trans (h.tops m)

/-- Changes below a site count as changes at the site. -/
theorem widen (h : Changes x d d₁) (hx : d.Under x s) : Changes s d d₁ :=
  { h with
    node := fun i hi hu => h.node i hi fun hu' => hu (hu'.trans hx)
    childrenOf := fun t ht hu => h.childrenOf t ht fun hu' => hu (hu'.trans hx)
    usesAt := fun t ht hu => h.usesAt t ht fun hu' => hu (hu'.trans hx) }

end Changes

namespace Quiet

theorem trans (hd : d.Sound) (h : Quiet s d d₁) (h' : Quiet s d₁ d₂) : Quiet s d d₂ where
  toChanges := h.toChanges.trans hd h'.toChanges
  children_eq t ht := by rw [h'.children_eq t (h.keeps.hasSite ht), h.children_eq t ht]

theorem widen (h : Quiet x d d₁) (hx : d.Under x s) : Quiet s d d₁ where
  toChanges := h.toChanges.widen hx
  children_eq := h.children_eq

/-- New records alone change nothing. -/
theorem of_extends (h : d.Extends d₁) (hs : d₁.Sound) : Quiet s d d₁ where
  sound := hs
  keeps := .of_extends h
  groupings_size := h.groupings_size
  modules_size := h.modules_size
  node i hi _ := h.node i hi
  childrenOf t ht _ := h.childrenOf ht
  usesAt t ht _ := h.usesAt ht
  augmentations u hu := by rw [h.usesOf u hu]
  groupings m := by rw [h.module m]
  tops m := by rw [h.module m]
  children_eq t ht := h.childrenOf ht

theorem refl (hd : d.Sound) : Quiet s d d := of_extends (.refl d) hd

end Quiet

/-! ## Edits that leave the tree alone -/

/-- The drafts have the same definitions at the same places; only what these say may differ. -/
structure Alike (d d₁ : Draft) : Prop where
  unfrozen : d₁.Unfrozen
  nodes_size : d₁.nodes.size = d.nodes.size
  groupings_size : d₁.groupings.size = d.groupings.size
  uses_size : d₁.uses.size = d.uses.size
  augments_size : d₁.augments.size = d.augments.size
  modules_size : d₁.modules.size = d.modules.size
  name : ∀ i, (d₁.node i).name = (d.node i).name
  kind : ∀ i, (d₁.node i).kind = (d.node i).kind
  path : ∀ i, (d₁.node i).path = (d.node i).path
  parent : ∀ i, (d₁.node i).parent = (d.node i).parent
  origin : ∀ i, (d₁.node i).origin = (d.node i).origin
  augmenting : ∀ i, (d₁.node i).facts.augmenting = (d.node i).facts.augmenting
  childrenOf : ∀ t, d₁.childrenOf t = d.childrenOf t
  usesAt : ∀ t, d₁.usesAt t = d.usesAt t
  augmentations : ∀ u, (d₁.usesOf u).augmentations = (d.usesOf u).augmentations
  grouping : ∀ g, (d₁.grouping g).facts.name = (d.grouping g).facts.name
  grouping_path : ∀ g, (d₁.grouping g).facts.path = (d.grouping g).facts.path
  target : ∀ a, (d₁.augment a).facts.target = (d.augment a).facts.target
  home : ∀ a, (d₁.augment a).facts.home = (d.augment a).facts.home
  order : ∀ a, (d₁.augment a).facts.order = (d.augment a).facts.order
  heading : ∀ m, (d₁.module m).facts.heading = (d.module m).facts.heading

namespace Alike

theorem refl (hd : d.Unfrozen) : d.Alike d :=
  ⟨hd, rfl, rfl, rfl, rfl, rfl, fun _ => rfl, fun _ => rfl, fun _ => rfl, fun _ => rfl,
    fun _ => rfl, fun _ => rfl, fun _ => rfl, fun _ => rfl, fun _ => rfl, fun _ => rfl,
    fun _ => rfl, fun _ => rfl, fun _ => rfl, fun _ => rfl, fun _ => rfl⟩

variable (h : d.Alike d₁)
include h

theorem contains : d₁.Contains = d.Contains := by
  funext y x
  cases x with
  | site t => simp only [Contains, contents, h.childrenOf, h.usesAt]
  | uses u => simp only [Contains, contents, h.augmentations]

theorem hasItem_iff (x : Item) : d₁.HasItem x ↔ d.HasItem x :=
  hasItem_iff_of_sizes h.nodes_size h.groupings_size h.uses_size h.augments_size h.modules_size x

theorem sound (hd : d.Sound) : d₁.Sound where
  unfrozen := h.unfrozen
  parent_iff t c := by
    rw [h.childrenOf, h.parent]
    exact hd.parent_iff t c
  uses_lt t u hu := by
    rw [h.usesAt] at hu
    rw [h.uses_size]
    exact hd.uses_lt t u hu
  augment_lt u a ha := by
    rw [h.augmentations] at ha
    rw [h.augments_size]
    exact hd.augment_lt u a ha
  wf := by
    rw [h.contains]
    exact hd.wf

theorem keeps : d.Keeps d₁ where
  nodes_le := Nat.le_of_eq h.nodes_size.symm
  groupings_le := Nat.le_of_eq h.groupings_size.symm
  uses_le := Nat.le_of_eq h.uses_size.symm
  augments_le := Nat.le_of_eq h.augments_size.symm
  modules_le := Nat.le_of_eq h.modules_size.symm
  name i _ := h.name i
  kind i _ := h.kind i
  path i _ := h.path i
  parent i _ := h.parent i
  origin i _ := h.origin i
  augmenting i _ := h.augmenting i
  children t _ := by rw [h.childrenOf]
  usesAt t _ := by rw [h.usesAt]
  grouping g _ := h.grouping g
  grouping_path g _ := h.grouping_path g
  target a _ := h.target a
  home a _ := h.home a
  order a _ := h.order a
  heading m _ := h.heading m

theorem identity (m : ModuleId) : (d₁.module m).facts.identity = (d.module m).facts.identity :=
  ModuleFacts.identity_of_heading (h.heading m)

end Alike

/-- A change of a node that leaves its place in the tree alone. -/
structure Harmless (f : NodeDraft → NodeDraft) : Prop where
  name : ∀ r, (f r).name = r.name
  kind : ∀ r, (f r).kind = r.kind
  path : ∀ r, (f r).path = r.path
  parent : ∀ r, (f r).parent = r.parent
  origin : ∀ r, (f r).origin = r.origin
  augmenting : ∀ r, (f r).facts.augmenting = r.facts.augmenting
  children : ∀ r, (f r).children = r.children
  uses : ∀ r, (f r).uses = r.uses

theorem Harmless.alike {f : NodeDraft → NodeDraft} (hf : Harmless f) (hd : d.Unfrozen) (n : NodeId) :
    d.Alike (d.mapNode n f) := by
  have hnode : ∀ {α : Type} (g : NodeDraft → α), (∀ r, g (f r) = g r) → ∀ i,
      g ((d.mapNode n f).node i) = g (d.node i) := by
    intro α g hg i
    rw [node_mapNode]
    split
    · exact hg _
    · rfl
  exact { Alike.refl hd with
    unfrozen := hd.mapNode n f
    nodes_size := Shelf.size_update _ _ _
    name := hnode NodeDraft.name hf.name
    kind := hnode NodeDraft.kind hf.kind
    path := hnode NodeDraft.path hf.path
    parent := hnode NodeDraft.parent hf.parent
    origin := hnode NodeDraft.origin hf.origin
    augmenting := hnode (fun r => r.facts.augmenting) hf.augmenting
    childrenOf := fun t => by
      cases t with
      | node i => exact hnode NodeDraft.children hf.children i
      | _ => rfl
    usesAt := fun t => by
      cases t with
      | node i => exact hnode NodeDraft.uses hf.uses i
      | _ => rfl }

theorem alike_mapUses {f : UsesDraft → UsesDraft} (hf : ∀ r, (f r).augmentations = r.augmentations)
    (hd : d.Unfrozen) (u : UsesId) : d.Alike (d.mapUses u f) :=
  { Alike.refl hd with
    unfrozen := hd.mapUses u f
    uses_size := Shelf.size_update _ _ _
    childrenOf := childrenOf_mapUses u f
    usesAt := usesAt_mapUses u f
    augmentations := fun v => by
      rw [usesOf_mapUses]
      split
      · exact hf _
      · rfl }

theorem Harmless.mapNode {f : NodeDraft → NodeDraft} (hf : Harmless f) (hd : d.Sound) (n : NodeId) :
    Quiet (.node n) d (d.mapNode n f) := by
  have h := hf.alike hd.unfrozen n
  exact {
    sound := h.sound hd
    keeps := h.keeps
    groupings_size := rfl
    modules_size := rfl
    node := fun i _ hu => node_mapNode_of_ne (fun hi => hu (by rw [hi]; exact .refl _)) f
    childrenOf := fun t _ _ => h.childrenOf t
    usesAt := fun t _ _ => h.usesAt t
    augmentations := fun _ _ => rfl
    groupings := fun _ => rfl
    tops := fun _ => rfl
    children_eq := fun t _ => h.childrenOf t }

/-- Facts of a uses may change. -/
theorem quiet_mapUses {f : UsesDraft → UsesDraft} (hf : ∀ r, (f r).augmentations = r.augmentations)
    (hd : d.Sound) (u : UsesId) : Quiet s d (d.mapUses u f) := by
  have h := alike_mapUses hf hd.unfrozen u
  exact {
    sound := h.sound hd
    keeps := h.keeps
    groupings_size := rfl
    modules_size := rfl
    node := fun _ _ _ => rfl
    childrenOf := fun t _ _ => h.childrenOf t
    usesAt := fun t _ _ => h.usesAt t
    augmentations := fun v _ => h.augmentations v
    groupings := fun _ => rfl
    tops := fun _ => rfl
    children_eq := fun t _ => h.childrenOf t }

end Draft

end YangSchema
