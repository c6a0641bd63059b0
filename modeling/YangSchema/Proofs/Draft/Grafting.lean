import YangSchema.Proofs.Draft.Frame

/-!
# Grafts

Merging an augmentation and expanding a uses both copy a list of nodes, one by one, and attach the
copies to a site.  What comes of it is a graft (`Grafted`): the children of the site go on with one
node for each node of the list (`Planted`), which is its copy or a shorthand case around its copy;
below it everything is copied as it was; and nothing else changes.
-/

namespace YangSchema

@[simp] theorem CopyStyle.isCase_kind (style : CopyStyle) (k : NodeKind) :
    (style.kind k).isCase = k.isCase := by
  unfold CopyStyle.kind
  split
  · cases k <;> rfl
  · rfl

@[simp] theorem CopyStyle.keyword_kind (style : CopyStyle) (k : NodeKind) :
    (style.kind k).keyword = k.keyword := by
  unfold CopyStyle.kind
  split
  · exact NodeKind.keyword_bindTo _ _
  · rfl

namespace Draft

open Edit

variable {style : CopyStyle} {d d₁ d₂ d₃ : Draft} {s : Site} {c r x : NodeId}

/-! ## Steps of a graft -/

/-- New uses stand at the end of those of the site, and nothing else is changed. -/
structure UsesPut (s : Site) (d d₁ : Draft) : Prop extends Quiet s d d₁ where
  record : ∀ i, i.index < d.nodes.size → d₁.node i = { d.node i with uses := d₁.usesAt (.node i) }
  uses_of_ne : ∀ t, d.HasSite t → t ≠ s → d₁.usesAt t = d.usesAt t
  uses_self : d.usesAt s <+: d₁.usesAt s

theorem UsesPut.refl (hd : d.Sound) : UsesPut s d d where
  toQuiet := .refl hd
  record _ _ := rfl
  uses_of_ne _ _ _ := rfl
  uses_self := List.prefix_refl _

theorem UsesPut.trans (hd : d.Sound) (h : UsesPut s d d₁) (h' : UsesPut s d₁ d₂) :
    UsesPut s d d₂ where
  toQuiet := h.toQuiet.trans hd h'.toQuiet
  record i hi := by rw [h'.record i (Nat.lt_of_lt_of_le hi h.keeps.nodes_le), h.record i hi]
  uses_of_ne t ht hne := by
    rw [h'.uses_of_ne t (h.keeps.hasSite ht) hne, h.uses_of_ne t ht hne]
  uses_self := h.uses_self.trans h'.uses_self

/-- A copied uses at the end of the uses of a site. -/
theorem usesPut_pushedUses {P : Item → Prop} (hs : d.HasSite s)
    (hg : Grows style (fun _ => False) P d d d₁) {u : UsesId} (hu : d.uses.size ≤ u.index)
    (hlt : u.index < d₁.uses.size) : UsesPut s d (d₁.pushedUses s u) := by
  have he := hg.extends_
  obtain ⟨-, hgroupings, huses, -, hmodules⟩ := d₁.sizes_pushedUses s u
  have hsound : (d₁.pushedUses s u).Sound :=
    hg.sound.pushedUses (he.hasSite hs) _ hg.new_closed ⟨hlt, Nat.not_lt.2 hu⟩ hlt fun h => h.2 hs
  have hne : ∀ {t}, ¬ d.Under t s → s ≠ t := by
    rintro t ht rfl
    exact ht (.refl _)
  refine {
    sound := hsound
    keeps := .pushedUses he s u
    groupings_size := hgroupings.trans he.groupings_size
    modules_size := hmodules.trans he.modules_size
    node := fun i hi hiu => ?_
    childrenOf := fun t ht _ => by rw [childrenOf_pushedUses, he.childrenOf ht]
    usesAt := fun t ht htu => by rw [usesAt_pushedUses_of_ne (hne htu), he.usesAt ht]
    augmentations := fun v hv => ?_
    groupings := fun m => by rw [module_pushedUses, he.module]
    tops := fun m => by rw [module_pushedUses, he.module]
    children_eq := fun t ht => by rw [childrenOf_pushedUses, he.childrenOf ht]
    record := fun i hi => by rw [node_pushedUses, he.node i hi]
    uses_of_ne := fun t ht hts => by rw [usesAt_pushedUses_of_ne (Ne.symm hts), he.usesAt ht]
    uses_self := by
      rw [usesAt_pushedUses_self (he.hasSite hs), he.usesAt hs]
      exact List.prefix_append _ _ }
  · rw [node_pushedUses, usesAt_pushedUses_of_ne (hne hiu), he.node i hi]
    show { d.node i with uses := (d₁.node i).uses } = _
    rw [he.node i hi]
  · rw [usesOf, huses]
    exact congrArg UsesDraft.augmentations (he.usesOf v hv)

/-- A new node attached to a site. -/
theorem Attached.changes (hd : d.Sound) (hs : d.HasSite s) (he : d.Extends d₁)
    (hc : d.nodes.size ≤ c.index) (h : d₁.Attached s c r d₂) : Changes s d d₂ := by
  have hnode : ∀ i, i.index < d.nodes.size →
      d₂.node i = { d.node i with children := d₂.childrenOf (.node i) } :=
    fun i hi => h.node_of_lt hd he hc hi
  have hchildren : ∀ t, d.HasSite t → t ≠ s → d₂.childrenOf t = d.childrenOf t := by
    intro t ht hts
    rw [h.children_of_hasSite (he.hasSite ht) hts, he.childrenOf ht]
  have hprefix : ∀ t, d.HasSite t → d.childrenOf t <+: d₂.childrenOf t := by
    intro t ht
    by_cases hts : t = s
    · rw [hts, h.children_self, he.childrenOf hs]
      exact List.prefix_append _ _
    · rw [hchildren t ht hts]
  have hout : ∀ {t}, ¬ d.Under t s → t ≠ s := by
    rintro t ht rfl
    exact ht (.refl _)
  exact {
    sound := h.sound
    keeps := {
      nodes_le := Nat.le_trans he.nodes_le h.nodes_le
      groupings_le := by rw [h.groupings_size, he.groupings_size]
      uses_le := by rw [h.uses]; exact he.uses_le
      augments_le := by rw [h.augments_size]; exact he.augments_le
      modules_le := by rw [h.modules_size, he.modules_size]
      name := fun i hi => by rw [hnode i hi]; rfl
      kind := fun i hi => by rw [hnode i hi]; rfl
      path := fun i hi => by rw [hnode i hi]; rfl
      parent := fun i hi => by rw [hnode i hi]
      origin := fun i hi => by rw [hnode i hi]
      augmenting := fun i hi => by rw [hnode i hi]
      children := hprefix
      usesAt := fun t ht => by rw [h.usesAt, he.usesAt ht]
      grouping := fun g _ => by rw [h.grouping, he.grouping]
      grouping_path := fun g _ => by rw [h.grouping, he.grouping]
      target := fun a ha => by rw [h.augment, he.augment a ha]
      home := fun a ha => by rw [h.augment, he.augment a ha]
      order := fun a ha => by rw [h.augment, he.augment a ha]
      heading := fun m _ => by rw [h.module, he.module] }
    groupings_size := h.groupings_size.trans he.groupings_size
    modules_size := h.modules_size.trans he.modules_size
    node := fun i hi hiu => by
      rw [hnode i hi, hchildren (.node i) hi (hout hiu)]
      rfl
    childrenOf := fun t ht htu => hchildren t ht (hout htu)
    usesAt := fun t ht _ => by rw [h.usesAt, he.usesAt ht]
    augmentations := fun u hu => by
      rw [usesOf, h.uses]
      exact congrArg UsesDraft.augmentations (he.usesOf u hu)
    groupings := fun m => by rw [h.module, he.module]
    tops := fun m => by rw [h.module, he.module] }

theorem Attached.origin (h : d₁.Attached s c r d₂) {i : NodeId} (hi : i.index < d₁.nodes.size) :
    (d₂.node i).origin = (d₁.node i).origin := by
  rw [h.node i hi]
  rfl

/-- A copy stays a copy when a node is attached elsewhere. -/
theorem Attached.copyOf (h : d₁.Attached s c r d₂) (hd₁ : d₁.Sound) {o i : NodeId}
    (hi : i.index < d₁.nodes.size) (hne : Site.node i ≠ s) (hcopy : CopyOf style d d₁ o i) :
    CopyOf style d d₂ o i := by
  refine hcopy.congr ?_ fun j hj => h.origin (hd₁.child_lt (s := .node i) hj)
  have hchildren : d₂.childrenOf (.node i) = (d₁.node i).children :=
    h.children_of_hasSite (t := .node i) hi hne
  rw [h.node i hi, hchildren]
  rfl

/-! ## Grafts -/

/-- The node `n` stands for the copy of `x` at the site `s`. -/
structure Planted (style : CopyStyle) (s : Site) (d d₁ : Draft) (x n : NodeId) : Prop where
  new : d.nodes.size ≤ n.index
  lt : n.index < d₁.nodes.size
  name : (d₁.node n).name = style.name (d.node x).name
  direct : d.wraps s x = false → (d₁.node n).origin = some x
  wrapped : d.wraps s x = true → (d₁.node n).kind = .caseNode true ∧ (d₁.node n).origin = none ∧
    ∃ c, d₁.childrenOf (.node n) = [c] ∧ (d₁.node c).origin = some x

/-- Copies of `body`, and of all that is below, at the site `s`. -/
structure Grafted (style : CopyStyle) (s : Site) (body : List NodeId) (d d₁ : Draft) : Prop where
  changes : Changes s d d₁
  record : ∀ i, i.index < d.nodes.size →
    d₁.node i = { d.node i with children := d₁.childrenOf (.node i) }
  children_of_ne : ∀ t, d.HasSite t → t ≠ s → d₁.childrenOf t = d.childrenOf t
  children_self : ∃ news, d₁.childrenOf s = d.childrenOf s ++ news ∧
    List.Forall₂ (Planted style s d d₁) body news
  copies : ∀ i o, d.nodes.size ≤ i.index → i.index < d₁.nodes.size →
    (d₁.node i).origin = some o → o.index < d.nodes.size → ¬ d.Under (.node o) s →
    CopyOf style d d₁ o i
  paths : ∀ n ∈ d₁.childrenOf s, d.nodes.size ≤ n.index → ∀ p j, d₁.Leads (.node n) p (.node j) →
    (d₁.node j).path = (d.pathOf s).down ((d₁.node n).name :: p)

namespace Keeps

theorem wraps (h : d.Keeps d₁) (hs : d.HasSite s) (hx : x.index < d.nodes.size) :
    d₁.wraps s x = d.wraps s x := by
  cases s with
  | node p =>
    show ((d₁.node p).kind.isChoice && !(d₁.node x).kind.isCase) = _
    rw [h.kind p hs, h.kind x hx]
    rfl
  | _ => rfl

theorem pathOf (h : d.Keeps d₁) (hs : d.HasSite s) : d₁.pathOf s = d.pathOf s := by
  cases s with
  | module m => rfl
  | node i => exact h.path i hs
  | grouping g => exact h.grouping_path g hs
  | augment a => exact h.target a hs

/-- The children of new nodes are new. -/
theorem new_of_child (hd : d.Sound) (h : d.Keeps d₁) (hd₁ : d₁.Sound) {i c : NodeId}
    (hi : d.nodes.size ≤ i.index) (hc : c ∈ d₁.childrenOf (.node i)) : d.nodes.size ≤ c.index := by
  refine Nat.le_of_not_lt fun hlt => ?_
  have hparent := hd₁.parent_eq hc
  rw [h.parent c hlt] at hparent
  exact Nat.not_lt.2 hi (hd.hasSite_parent hparent)

end Keeps

/-! ### One node more -/

/-- A copy `c` of the node `x` is made, and attached to the site; `r` stands there for it. -/
structure Copied (style : CopyStyle) (P : Item → Prop) (s : Site) (x c r : NodeId) (d d₁ d₂ : Draft) :
    Prop where
  grows : Grows style (fun _ => False) P d d d₁
  new : d.nodes.size ≤ c.index
  lt : c.index < d₁.nodes.size
  origin : (d₁.node c).origin = some x
  attached : d₁.Attached s c r d₂

namespace Copied

variable {P : Item → Prop} (h : Copied style P s x c r d d₁ d₂)
include h

theorem copyOf : CopyOf style d d₁ x c := by
  obtain ⟨o, -, hcopy⟩ := (h.grows.copied c h.new h.lt).resolve_left id
  obtain rfl : o = x := Option.some.inj (hcopy.origin.symm.trans h.origin)
  exact hcopy

theorem changes (hd : d.Sound) (hs : d.HasSite s) : Changes s d d₂ :=
  h.attached.changes hd hs h.grows.extends_ h.new

/-- A node that was there keeps its children, unless it is the site. -/
theorem childrenOf {t : Site} (ht : d.HasSite t) (hts : t ≠ s) : d₂.childrenOf t = d.childrenOf t := by
  rw [h.attached.children_of_hasSite (h.grows.extends_.hasSite ht) hts, h.grows.extends_.childrenOf ht]

theorem children_self (hs : d.HasSite s) : d₂.childrenOf s = d.childrenOf s ++ [r] := by
  rw [h.attached.children_self, h.grows.extends_.childrenOf hs]

theorem wraps (hs : d.HasSite s) : d₁.wraps s c = d.wraps s x := by
  cases s with
  | node p =>
    show ((d₁.node p).kind.isChoice && !(d₁.node c).kind.isCase) = _
    rw [h.copyOf.kind, CopyStyle.isCase_kind, (Keeps.of_extends h.grows.extends_).kind p hs]
    rfl
  | _ => rfl

theorem planted (hs : d.HasSite s) : Planted style s d d₂ x r := by
  have hwraps := h.wraps hs
  cases hw : d₁.wraps s c with
  | false =>
    obtain ⟨rfl, hsize⟩ := h.attached.direct hw
    refine ⟨h.new, by rw [hsize]; exact h.lt, ?_, fun _ => ?_, fun hwx => ?_⟩
    · rw [h.attached.node _ h.lt, ← h.copyOf.name]
      rfl
    · rw [h.attached.origin h.lt, h.origin]
    · rw [← hwraps, hw] at hwx
      cases hwx
  | true =>
    obtain ⟨rfl, hsize, hnode⟩ := h.attached.wrapper hw
    refine ⟨h.grows.extends_.nodes_le, by rw [hsize]; exact Nat.lt_succ_self _, ?_, fun hwx => ?_,
      fun _ => ⟨?_, ?_, c, ?_, ?_⟩⟩
    · rw [hnode, ← h.copyOf.name]
      rfl
    · rw [← hwraps, hw] at hwx
      cases hwx
    · rw [hnode]
      rfl
    · rw [hnode]
      rfl
    · show (d₂.node _).children = _
      rw [hnode]
    · rw [h.attached.origin h.lt, h.origin]

/-- A copy that was there stays one. -/
theorem copyOf_old (hd : d.Sound) {d₀ : Draft} {o i : NodeId} (hi : i.index < d.nodes.size)
    (hne : Site.node i ≠ s) (hcopy : CopyOf style d₀ d o i) : CopyOf style d₀ d₂ o i := by
  have he := h.grows.extends_
  refine h.attached.copyOf h.grows.sound (Nat.lt_of_lt_of_le hi he.nodes_le) hne
    (hcopy.congr ?_ fun j hj => ?_)
  · rw [he.node i hi]
    rfl
  · rw [he.node j (hd.child_lt (s := .node i) hj)]

/-- New nodes with an origin are copies; the shorthand case has none. -/
theorem copyOf_new (hs : d.HasSite s) {o i : NodeId} (hi : d.nodes.size ≤ i.index)
    (hlt : i.index < d₂.nodes.size) (ho : (d₂.node i).origin = some o) : CopyOf style d d₂ o i := by
  by_cases hi₁ : i.index < d₁.nodes.size
  · obtain ⟨o', -, hcopy⟩ := (h.grows.copied i hi hi₁).resolve_left id
    rw [h.attached.origin hi₁, hcopy.origin] at ho
    obtain rfl : o' = o := Option.some.inj ho
    refine h.attached.copyOf h.grows.sound hi₁ ?_ hcopy
    rintro rfl
    exact Nat.not_lt.2 hi hs
  · obtain ⟨rfl, hw⟩ := h.attached.eq_of_new (Nat.not_lt.1 hi₁) hlt
    rw [(h.attached.wrapper hw).2.2] at ho
    cases ho

/-- Ways from the copy lead where they led before it was attached. -/
theorem leads (hs : d.HasSite s) {p : List QName} {j : NodeId} (hp : d₂.Leads (.node c) p (.node j)) :
    d₁.Leads (.node c) p (.node j) := by
  have hchildren : ∀ i : NodeId, d.nodes.size ≤ i.index → i.index < d₁.nodes.size →
      d₂.childrenOf (.node i) = d₁.childrenOf (.node i) := by
    intro i hi hi₁
    refine h.attached.children_of_hasSite (t := .node i) hi₁ ?_
    rintro rfl
    exact Nat.not_lt.2 hi hs
  refine (hp.of_closed
    (N := fun t => ∃ i, t = .node i ∧ d.nodes.size ≤ i.index ∧ i.index < d₁.nodes.size)
    ?_ ?_ ?_ ⟨c, rfl, h.new, h.lt⟩).2
  · rintro t y hy ⟨i, rfl, hi, hi₁⟩
    rw [hchildren i hi hi₁] at hy
    have hnew := h.grows.new_closed (.site (.node i)) (.site (.node y)) ⟨hi₁, Nat.not_lt.2 hi⟩
      (contains_site.2 (.inl ⟨y, hy, rfl⟩))
    exact ⟨y, rfl, Nat.not_lt.1 hnew.2, hnew.1⟩
  · rintro t ⟨i, rfl, hi, hi₁⟩
    exact (hchildren i hi hi₁).symm
  · rintro y ⟨i, hyi, -, hi₁⟩
    cases hyi
    rw [h.attached.node y hi₁]
    rfl

theorem path (hs : d.HasSite s) {p : List QName} {j : NodeId} (hp : d₂.Leads (.node r) p (.node j)) :
    (d₂.node j).path = (d.pathOf s).down ((d₂.node r).name :: p) := by
  have hpathOf : d₁.pathOf s = d.pathOf s := (Keeps.of_extends h.grows.extends_).pathOf hs
  cases hw : d₁.wraps s c with
  | false =>
    obtain ⟨rfl, -⟩ := h.attached.direct hw
    rw [h.attached.path_inside p j (h.leads hs hp), if_neg (by rw [hw]; simp), hpathOf,
      h.attached.node r h.lt]
    rfl
  | true =>
    obtain ⟨rfl, -, hnode⟩ := h.attached.wrapper hw
    have hname : (d₂.node ⟨d₁.nodes.size⟩).name = (d₁.node c).name := by rw [hnode]; rfl
    rw [hname]
    cases hp with
    | nil =>
      rw [hnode, ← hpathOf]
      rfl
    | @cons _ _ y p hy hp =>
      obtain rfl : y = c := by
        have hy' : y ∈ (d₂.node ⟨d₁.nodes.size⟩).children := hy
        rw [hnode] at hy'
        exact List.mem_singleton.1 hy'
      rw [h.attached.path_inside p j (h.leads hs hp), if_pos hw, hpathOf, h.attached.node y h.lt]
      rfl

/-- Ways from a node that was new before lead where they led. -/
theorem leads_old {d₀ : Draft} (hd₀ : d₀.Sound) (hs : d₀.HasSite s) (hk : d₀.Keeps d) (hd : d.Sound)
    {n j : NodeId} (hnew : d₀.nodes.size ≤ n.index) (hn : n.index < d.nodes.size) {p : List QName}
    (hp : d₂.Leads (.node n) p (.node j)) :
    j.index < d.nodes.size ∧ d.Leads (.node n) p (.node j) := by
  have hchildren : ∀ i : NodeId, d₀.nodes.size ≤ i.index → i.index < d.nodes.size →
      d₂.childrenOf (.node i) = d.childrenOf (.node i) := by
    intro i hi hi₁
    refine h.childrenOf (t := .node i) hi₁ ?_
    rintro rfl
    exact Nat.not_lt.2 hi hs
  obtain ⟨⟨i, hji, -, hi⟩, hp⟩ := hp.of_closed (e := d)
    (N := fun t => ∃ i, t = .node i ∧ d₀.nodes.size ≤ i.index ∧ i.index < d.nodes.size)
    (by
      rintro t y hy ⟨i, rfl, hi, hi₁⟩
      rw [hchildren i hi hi₁] at hy
      exact ⟨y, rfl, hk.new_of_child hd₀ hd hi hy, hd.child_lt hy⟩)
    (by
      rintro t ⟨i, rfl, hi, hi₁⟩
      exact (hchildren i hi hi₁).symm)
    (by
      rintro y ⟨i, hyi, -, hi₁⟩
      cases hyi
      exact ((h.changes hd (hk.hasSite hs)).keeps.name y hi₁).symm)
    ⟨n, rfl, hnew, hn⟩
  cases hji
  exact ⟨hi, hp⟩

end Copied

namespace Planted

variable {n : NodeId}

/-- What is planted in a draft that came of another one is planted in that one. -/
theorem of_keeps (h : Planted style s d₁ d₂ x n) (hk : d.Keeps d₁) (hs : d.HasSite s)
    (hx : x.index < d.nodes.size) : Planted style s d d₂ x n where
  new := Nat.le_trans hk.nodes_le h.new
  lt := h.lt
  name := by rw [h.name, hk.name x hx]
  direct hw := h.direct ((hk.wraps hs hx).trans hw)
  wrapped hw := h.wrapped ((hk.wraps hs hx).trans hw)

/-- What is planted stays so when another node is copied. -/
theorem copied {P : Item → Prop} {y : NodeId} (h : Planted style s d d₁ y n) (hd₁ : d₁.Sound)
    (hs₁ : d₁.HasSite s) (hne : Site.node n ≠ s) (hcopied : Copied style P s x c r d₁ d₂ d₃) :
    Planted style s d d₃ y n := by
  have hk := (hcopied.changes hd₁ hs₁).keeps
  refine ⟨h.new, Nat.lt_of_lt_of_le h.lt hk.nodes_le, ?_, fun hw => ?_, fun hw => ?_⟩
  · rw [hk.name n h.lt, h.name]
  · rw [hk.origin n h.lt, h.direct hw]
  · obtain ⟨hkind, horigin, i, hi, hio⟩ := h.wrapped hw
    have hmem : i ∈ d₁.childrenOf (.node n) := by rw [hi]; simp
    refine ⟨by rw [hk.kind n h.lt, hkind], by rw [hk.origin n h.lt, horigin], i, ?_, ?_⟩
    · rw [hcopied.childrenOf (t := .node n) h.lt hne, hi]
    · rw [hk.origin i (hd₁.child_lt hmem), hio]

end Planted

namespace Grafted

variable {body : List NodeId}

theorem nil (hd : d.Sound) : Grafted style s [] d d where
  changes := (Quiet.refl hd).toChanges
  record _ _ := rfl
  children_of_ne _ _ _ := rfl
  children_self := ⟨[], by simp, .nil⟩
  copies i o h₁ h₂ := absurd h₁ (Nat.not_le.2 h₂)
  paths n hn h := absurd (hd.child_lt hn) (Nat.not_lt.2 h)

/-- One more node is copied and attached. -/
theorem snoc {P : Item → Prop} (hd : d.Sound) (hs : d.HasSite s) (h : Grafted style s body d d₁)
    (hx : x.index < d.nodes.size) (hcopied : Copied style P s x c r d₁ d₂ d₃) :
    Grafted style s (body ++ [x]) d d₃ := by
  have hd₁ := h.changes.sound
  have hk₁ := h.changes.keeps
  have hs₁ := hk₁.hasSite hs
  have hch := hcopied.changes hd₁ hs₁
  have hne : ∀ {i : NodeId}, d.nodes.size ≤ i.index → Site.node i ≠ s := by
    rintro i hi rfl
    exact Nat.not_lt.2 hi hs
  refine ⟨h.changes.trans hd hch, fun i hi => ?_, fun t ht hts => ?_, ?_,
    fun i o h₁ h₂ ho ho' hu => ?_, fun n hn hnn p j hp => ?_⟩
  · rw [hcopied.attached.node_of_lt hd₁ hcopied.grows.extends_ hcopied.new
      (Nat.lt_of_lt_of_le hi hk₁.nodes_le), h.record i hi]
  · rw [hcopied.childrenOf (hk₁.hasSite ht) hts, h.children_of_ne t ht hts]
  · obtain ⟨news, hnews, hall⟩ := h.children_self
    refine ⟨news ++ [r], by rw [hcopied.children_self hs₁, hnews, List.append_assoc], ?_⟩
    exact List.rel_append (hall.imp fun y n hn => hn.copied hd₁ hs₁ (hne hn.new) hcopied)
      (.cons ((hcopied.planted hs₁).of_keeps hk₁ hs hx) .nil)
  · by_cases hi : i.index < d₁.nodes.size
    · rw [hch.keeps.origin i hi] at ho
      exact hcopied.copyOf_old hd₁ hi (hne h₁) (h.copies i o h₁ hi ho ho' hu)
    · have hcopy := hcopied.copyOf_new hs₁ (Nat.not_lt.1 hi) h₂ ho
      unfold CopyOf at hcopy ⊢
      rw [← h.changes.node o ho' hu]
      exact ⟨by rw [← h.changes.node o ho' hu]; exact hcopy.node, hcopy.children⟩
  · rw [hcopied.children_self hs₁] at hn
    rcases List.mem_append.1 hn with hn | hn
    · have hn₁ := hd₁.child_lt hn
      obtain ⟨hj, hp₁⟩ := hcopied.leads_old hd hs hk₁ hd₁ hnn hn₁ hp
      rw [hch.keeps.path j hj, hch.keeps.name n hn₁]
      exact h.paths n hn hnn p j hp₁
    · obtain rfl := List.mem_singleton.1 hn
      rw [hcopied.path hs₁ hp, hk₁.pathOf hs]

end Grafted

/-! ## Running grafts -/

/-- The fault of a node that accepts no children. -/
def Refusal (f : Fault) : Prop := ∃ k p k', f = .malformed (.cannotContain k p k')

/-- Copying a node to a site. -/
theorem ends_copyTo (hd : d.Sound) (hs : d.HasSite s) (hx : x.index < d.nodes.size) :
    Ends (do discard <| attach s (← copyNode style x)) d
      (fun _ d' => ∃ c r d₁, Copied style (d.Inside (.site (.node x))) s x c r d d₁ d')
      fun f d' => Changes s d d' ∧ Refusal f := by
  rw [ends_bind]
  refine (ends_copyNode hd hx).mono ?_ fun _ _ hE => hE.elim
  rintro c d₁ ⟨hg, rfl, hlt, hnone, horigin⟩
  rw [ends_discard]
  refine (ends_attach hg.sound (hg.extends_.hasSite hs) (hg.loose (Nat.le_refl _) hlt hnone)
    (fun hN => hN.2 hs) fun _ hN => hN.1).mono ?_ ?_
  · rintro r d₂ ⟨-, hatt⟩
    exact ⟨_, r, d₁, hg, Nat.le_refl _, hlt, horigin, hatt⟩
  · rintro f d₂ ⟨-, rfl, hf⟩
    exact ⟨(Quiet.of_extends hg.extends_ hg.sound).toChanges, hf⟩

/-- Copying nodes to a site, one after the other. -/
theorem ends_graft (hd : d.Sound) (hs : d.HasSite s) (body : List NodeId)
    (hbody : ∀ x ∈ body, x.index < d.nodes.size) :
    Ends (body.forM fun c => do discard <| attach s (← copyNode style c)) d
      (fun _ d' => Grafted style s body d d') fun f d' => Changes s d d' ∧ Refusal f := by
  refine ends_forM (I := fun pre d' => Grafted style s pre d d') body (.nil hd) ?_
  intro pre x post d₁ hl h
  have hx : x.index < d.nodes.size := hbody x (by rw [hl]; simp)
  have hk := h.changes.keeps
  refine (ends_copyTo h.changes.sound (hk.hasSite hs) (Nat.lt_of_lt_of_le hx hk.nodes_le)).mono ?_ ?_
  · rintro _ d₃ ⟨c, r, d₂, hcopied⟩
    exact h.snoc hd hs hx hcopied
  · rintro f d₃ ⟨hch, hf⟩
    exact ⟨h.changes.trans hd hch, hf⟩

/-- Copying uses to a site, one after the other. -/
theorem ends_copyUsesTo (hd : d.Sound) (hs : d.HasSite s) (l : List UsesId)
    (hl : ∀ u ∈ l, u.index < d.uses.size) :
    Ends (l.forM fun u => do pushUses s (← copyUses style u)) d (fun _ d' => UsesPut s d d')
      fun _ _ => False := by
  refine ends_forM (I := fun _ d' => UsesPut s d d') l (.refl hd) ?_
  intro pre u post d₁ hpre h
  have hu : u.index < d₁.uses.size :=
    Nat.lt_of_lt_of_le (hl u (by rw [hpre]; simp)) h.keeps.uses_le
  rw [ends_bind]
  refine (ends_copyUses h.sound hu).mono ?_ fun _ _ hE => hE
  rintro v d₂ ⟨hg, hv, hlt⟩
  rw [ends_pushUses hg.sound.unfrozen]
  exact h.trans hd (usesPut_pushedUses (h.keeps.hasSite hs) hg hv hlt)

end Draft

end YangSchema
