import YangSchema.Proofs.Draft.Showing

/-!
# What a graft shows

Where a site takes over what stands at another one (`Takes`), the new nodes can be told from those
that were there, and from one another just as in the body.  So the site shows what it showed, and in
addition what the body shows, renamed and under a choice with cases around it (`Transplant`); nothing
else is to be seen anywhere (`Takes.of_shows`, `Takes.shows_transplant`).
-/

namespace YangSchema

theorem NodeKind.isCase_iff {k : NodeKind} : k.isCase = true ↔ k.keyword = "case" := by
  cases k <;> simp [isCase, keyword]

theorem NodeKind.isChoice_eq {k k' : NodeKind} (h : k.keyword = k'.keyword) :
    k.isChoice = k'.isChoice := by
  have hiff : ∀ k : NodeKind, k.isChoice = true ↔ k.keyword = "choice" := by
    intro k
    cases k <;> simp [isChoice, keyword]
  rw [Bool.eq_iff_iff, hiff, hiff, h]

/-- Names of one module stay apart in copies. -/
theorem CopyStyle.name_inj {style : CopyStyle} {q q' : QName} (ho : q.owner = q'.owner)
    (h : style.name q = style.name q') : q = q' := by
  unfold name at h
  split at h
  · unfold QName.bindTo at h
    have hl : q.localName = q'.localName := (QName.mk.inj h).2
    cases q
    cases q'
    exact (QName.mk.injEq ..).mpr ⟨ho, hl⟩
  · exact h

namespace Draft

variable {style : CopyStyle} {d d₁ : Draft} {first : Bool} {s t x : Site} {p : List QName}
  {q : QName} {c i o : NodeId} {top k : String}

theorem wraps_eq_true : d.wraps s o = true ↔ d.isChoice s = true ∧ (d.node o).kind.keyword ≠ "case" := by
  rw [wraps_eq, Bool.and_eq_true, Bool.not_eq_true', ne_eq, ← NodeKind.isCase_iff,
    Bool.not_eq_true]

theorem Sound.under_of_mem (hd : d.Sound) (hx : d.Under x t) (hc : c ∈ d.childrenOf x) :
    d.Under (.node c) t :=
  .up (hd.parent_eq hc) hx

/-! ## Transplants -/

/-- What the copies of a body show that itself shows `V`: the same with other names; but directly
under a choice each node that is no case stands in a case of its name. -/
inductive Transplant (style : CopyStyle) (choice : Bool) (V : List QName → String → String → Prop) :
    List QName → String → String → Prop
  | direct {p : List QName} {top k : String} (h : V p top k)
    (hw : ¬ (choice = true ∧ top ≠ "case")) : Transplant style choice V (p.map style.name) top k
  | wrapper {q : QName} {top k : String} (h : V [q] top k) (hw : choice = true ∧ top ≠ "case") :
    Transplant style choice V [style.name q] "case" "case"
  | wrapped {q : QName} {p : List QName} {top k : String} (h : V (q :: p) top k)
    (hw : choice = true ∧ top ≠ "case") :
    Transplant style choice V (style.name q :: (q :: p).map style.name) "case" k

theorem Transplant.mono {choice : Bool} {V V' : List QName → String → String → Prop}
    (hV : ∀ p top k, V p top k → V' p top k) (h : Transplant style choice V p top k) :
    Transplant style choice V' p top k := by
  cases h with
  | direct h hw => exact .direct (hV _ _ _ h) hw
  | wrapper h hw => exact .wrapper (hV _ _ _ h) hw
  | wrapped h hw => exact .wrapped (hV _ _ _ h) hw

theorem Transplant.exists_name {choice : Bool} {V : List QName → String → String → Prop}
    (h : Transplant style choice V p top k) (hq : q ∈ p) :
    ∃ p' top' k', V p' top' k' ∧ ∃ q' ∈ p', style.name q' = q := by
  cases h with
  | direct h =>
    obtain ⟨q', hq', rfl⟩ := List.mem_map.1 hq
    exact ⟨_, _, _, h, q', hq', rfl⟩
  | wrapper h =>
    rw [List.mem_singleton.1 hq]
    exact ⟨_, _, _, h, _, List.mem_singleton_self _, rfl⟩
  | wrapped h =>
    rcases List.mem_cons.1 hq with rfl | hq
    · exact ⟨_, _, _, h, _, List.mem_cons_self, rfl⟩
    · obtain ⟨q', hq', rfl⟩ := List.mem_map.1 hq
      exact ⟨_, _, _, h, q', hq', rfl⟩

/-- The names on the way from `s` to the copy of what is at the end of `p` in the body `t`: one more
than in the body if a case is put around the copy. -/
def copyWay (d : Draft) (style : CopyStyle) (s t : Site) : List QName → List QName
  | [] => []
  | q :: p =>
    if (d.findChild t q).any (d.wraps s) then style.name q :: (q :: p).map style.name
    else (q :: p).map style.name

/-! ## Looking through a site -/

/-- What is seen from `x` by going down to the site `s`, if `V` is seen from there. -/
inductive ShowsVia (d : Draft) (first : Bool) (s : Site)
    (V : List QName → String → String → Prop) : Site → List QName → String → String → Prop
  | here {p : List QName} {top k : String} (h : V p top k) : ShowsVia d first s V s p top k
  | there {x : Site} {q : QName} {c : NodeId} {p : List QName} {top k : String}
    (hc : d.Picks first x q c) (h : ShowsVia d first s V (.node c) p top k) :
    ShowsVia d first s V x (q :: p) (d.node c).kind.keyword k

theorem ShowsVia.exists_reaches {V : List QName → String → String → Prop}
    (h : ShowsVia d first s V x p top k) : ∃ p₁ p₂ top', p = p₁ ++ p₂ ∧ d.Reaches first x p₁ s ∧
      (p₁ = [] → top' = top) ∧ V p₂ top' k := by
  induction h with
  | here h => exact ⟨[], _, _, rfl, .nil _, fun _ => rfl, h⟩
  | there hc _ ih =>
    obtain ⟨p₁, p₂, top', rfl, hreach, -, h⟩ := ih
    exact ⟨_ :: p₁, p₂, top', rfl, .cons hc hreach, fun h => (by cases h), h⟩

/-! ## Taking over a body -/

/-- The site `s` takes over copies of all that stands at the root `t`, under names of one module that
are free at `s`. -/
structure Takes (style : CopyStyle) (s t : Site) (d d₁ : Draft) : Prop
    extends Grafted style s (d.childrenOf t) d d₁ where
  root : ∀ i, t ≠ .node i
  outside : ¬ d.Under s t
  owners : ∀ i j, d.Under (.node i) t → d.Under (.node j) t →
    (d.node i).name.owner = (d.node j).name.owner
  fresh : ∀ c ∈ d.childrenOf t, d.findChild s (style.name (d.node c).name) = none

/-- `i` is the copy that `d₁` has of the node `o` of the body at `t`. -/
structure IsCopy (t : Site) (d d₁ : Draft) (o i : NodeId) : Prop where
  under : d.Under (.node o) t
  new : d.nodes.size ≤ i.index
  lt : i.index < d₁.nodes.size
  origin : (d₁.node i).origin = some o

namespace Takes

variable (hd : d.Sound) (h : Takes style s t d d₁)

include h

theorem not_under (hx : d.Under x t) : ¬ d.Under x s := by
  intro hxs
  rcases hx.total hxs with hts | hst
  · obtain rfl := hts.eq_of_root h.root
    exact h.outside (.refl _)
  · exact h.outside hst

theorem copyOf (hi : IsCopy t d d₁ o i) : CopyOf style d d₁ o i :=
  h.copies i o hi.new hi.lt hi.origin (lt_of_under hi.under h.root) (h.not_under hi.under)

theorem name_of_copy (hi : IsCopy t d d₁ o i) : (d₁.node i).name = style.name (d.node o).name :=
  (h.copyOf hi).name

theorem keyword_of_copy (hi : IsCopy t d d₁ o i) :
    (d₁.node i).kind.keyword = (d.node o).kind.keyword := by
  rw [(h.copyOf hi).kind, CopyStyle.keyword_kind]

theorem name_inj (hi : d.Under (.node i) t) (ho : d.Under (.node o) t)
    (hname : style.name (d.node i).name = style.name (d.node o).name) :
    (d.node i).name = (d.node o).name :=
  CopyStyle.name_inj (h.owners i o hi ho) hname

include hd

/-- The children of a copy are copies. -/
theorem children_of_copy (hi : IsCopy t d d₁ o i) :
    List.Forall₂ (fun c' c => IsCopy t d d₁ c c') (d₁.childrenOf (.node i))
      (d.childrenOf (.node o)) := by
  have hmap : List.Forall₂ (fun c' c => (d₁.node c').origin = some c) (d₁.childrenOf (.node i))
      (d.childrenOf (.node o)) := by
    rw [← List.forall₂_map_left_iff (f := fun c' => (d₁.node c').origin)
      (R := fun a c => a = some c), ← List.forall₂_map_right_iff (f := some) (R := fun a b => a = b),
      List.forall₂_eq_eq_eq]
    exact (h.copyOf hi).children
  have hk := h.changes.keeps
  have hd₁ := h.changes.sound
  refine List.forall₂_iff_get.2 ?_
  obtain ⟨hlen, hget⟩ := List.forall₂_iff_get.1 hmap
  refine ⟨hlen, fun n h₁ h₂ => ?_⟩
  have hc' := List.get_mem (d₁.childrenOf (.node i)) ⟨n, h₁⟩
  have hc := List.get_mem (d.childrenOf (.node o)) ⟨n, h₂⟩
  exact ⟨hd.under_of_mem hi.under hc, hk.new_of_child hd hd₁ hi.new hc', hd₁.child_lt hc',
    hget n h₁ h₂⟩

theorem picks_copy {o' : NodeId} (hi : IsCopy t d d₁ o i) (ho : d.Picks first (.node o) q o') :
    ∃ c, d₁.Picks first (.node i) (style.name q) c ∧ IsCopy t d d₁ o' c := by
  refine Picked.forall₂ style.name (h.children_of_copy hd hi) (fun c' _ c _ hc => h.name_of_copy hc) ?_ ho
  intro c hc hname
  rw [← ho.name_eq] at hname ⊢
  exact h.name_inj (hd.under_of_mem hi.under hc) (hd.under_of_mem hi.under ho.mem) hname

/-- A child picked below a copy is the copy of a child picked below the original. -/
theorem picks_of_copy (hi : IsCopy t d d₁ o i) (hc : d₁.Picks first (.node i) q c) :
    ∃ o', d.Picks first (.node o) (d.node o').name o' ∧ IsCopy t d d₁ o' c ∧
      q = style.name (d.node o').name := by
  exact Picked.of_forall₂ style.name (h.children_of_copy hd hi) (fun c' _ c _ hc => h.name_of_copy hc) hc

/-- Below a copy one sees the same as below the original. -/
theorem shows_copy (hi : IsCopy t d d₁ o i) (ho : d.Shows first (.node o) p top k) :
    d₁.Shows first (.node i) (p.map style.name) top k := by
  generalize hx : Site.node o = x at ho
  induction ho generalizing o i with
  | here hc =>
    subst hx
    obtain ⟨c', hc', hcopy⟩ := h.picks_copy hd hi hc
    rw [← h.keyword_of_copy hcopy]
    exact .here hc'
  | there hc _ ih =>
    subst hx
    obtain ⟨c', hc', hcopy⟩ := h.picks_copy hd hi hc
    rw [← h.keyword_of_copy hcopy]
    exact .there hc' (ih hcopy rfl)

/-- And nothing else. -/
theorem shows_of_copy (hi : IsCopy t d d₁ o i) (hp : d₁.Shows first (.node i) p top k) :
    ∃ p₀, p = p₀.map style.name ∧ d.Shows first (.node o) p₀ top k := by
  generalize hx : Site.node i = x at hp
  induction hp generalizing o i with
  | here hc =>
    subst hx
    obtain ⟨o', ho', hcopy, rfl⟩ := h.picks_of_copy hd hi hc
    rw [h.keyword_of_copy hcopy]
    exact ⟨[_], rfl, .here ho'⟩
  | there hc _ ih =>
    subst hx
    obtain ⟨o', ho', hcopy, rfl⟩ := h.picks_of_copy hd hi hc
    obtain ⟨p₀, rfl, hp₀⟩ := ih hcopy rfl
    rw [h.keyword_of_copy hcopy]
    exact ⟨_ :: p₀, rfl, .there ho' hp₀⟩

/-- The same names lead from a copy to the copies of what is below the original. -/
theorem reaches_copy {n : NodeId} (hi : IsCopy t d d₁ o i)
    (hp : d.Reaches first (.node o) p (.node n)) :
    ∃ c, d₁.Reaches first (.node i) (p.map style.name) (.node c) ∧ IsCopy t d d₁ n c := by
  generalize hx : Site.node o = x at hp
  generalize hy : Site.node n = y at hp
  induction hp generalizing o i with
  | nil =>
    cases hx.trans hy.symm
    exact ⟨i, .nil _, hi⟩
  | cons hc _ ih =>
    subst hx
    obtain ⟨c', hc', hcopy⟩ := h.picks_copy hd hi hc
    obtain ⟨c, hreach, hcopy⟩ := ih hcopy rfl hy
    exact ⟨c, .cons hc' hreach, hcopy⟩

/-! ### New children -/

/-- What stands at the site for a node of the body: the copy, or a case with the copy in it. -/
theorem planted_cases (ho : o ∈ d.childrenOf t) (hc : Planted style s d d₁ o c) :
    (¬ (d.isChoice s = true ∧ (d.node o).kind.keyword ≠ "case") ∧ IsCopy t d d₁ o c) ∨
    (d.isChoice s = true ∧ (d.node o).kind.keyword ≠ "case") ∧
      (d₁.node c).kind.keyword = "case" ∧
      ∃ c', IsCopy t d d₁ o c' ∧ d₁.childrenOf (.node c) = [c'] := by
  have hunder : d.Under (.node o) t := hd.under_of_mem (.refl t) ho
  cases hw : d.wraps s o with
  | false =>
    refine .inl ⟨fun hcase => ?_, hunder, hc.new, hc.lt, hc.direct hw⟩
    rw [wraps_eq_true.2 hcase] at hw
    cases hw
  | true =>
    obtain ⟨hkind, -, c', hchildren, horigin⟩ := hc.wrapped hw
    have hmem : c' ∈ d₁.childrenOf (.node c) := by rw [hchildren]; exact List.mem_singleton_self c'
    have hd₁ := h.changes.sound
    have hcopy : IsCopy t d d₁ o c' :=
      ⟨hunder, h.changes.keeps.new_of_child hd hd₁ hc.new hmem, hd₁.child_lt hmem, horigin⟩
    exact .inr ⟨wraps_eq_true.1 hw, by rw [hkind]; rfl, c', hcopy, hchildren⟩

theorem picks_planted (ho : d.Picks first t q o) :
    ∃ c, d₁.Picks first s (style.name q) c ∧ Planted style s d d₁ o c := by
  obtain ⟨news, hnews, hall⟩ := h.children_self
  have hunder : ∀ {x}, x ∈ d.childrenOf t → d.Under (.node x) t := hd.under_of_mem (.refl t)
  have hname : ∀ c ∈ news, ∀ o ∈ d.childrenOf t, flip (Planted style s d d₁) c o →
      (d₁.node c).name = style.name (d.node o).name := fun _ _ _ _ hp => hp.name
  obtain ⟨c, hc, hplanted⟩ := Picked.forall₂ style.name hall.flip hname (fun x hx hname => by
      rw [← ho.name_eq] at hname ⊢
      exact h.name_inj (hunder hx) (hunder ho.mem) hname) ho
  refine ⟨c, ?_, hplanted⟩
  unfold Picks
  rw [hnews]
  refine hc.append_right fun x hx hname => ?_
  -- the name was free at the site
  have hfree := List.find?_eq_none.1 (h.fresh o ho.mem) x hx
  rw [h.changes.keeps.name x (hd.child_lt hx)] at hname
  rw [hname, ho.name_eq] at hfree
  simp at hfree

theorem picks_of_new (hc : d₁.Picks first s q c) (hnew : d.nodes.size ≤ c.index) :
    ∃ o, d.Picks first t (d.node o).name o ∧ Planted style s d d₁ o c ∧
      q = style.name (d.node o).name := by
  obtain ⟨news, hnews, hall⟩ := h.children_self
  unfold Picks at hc
  rw [hnews] at hc
  have hname : ∀ c ∈ news, ∀ o ∈ d.childrenOf t, flip (Planted style s d d₁) c o →
      (d₁.node c).name = style.name (d.node o).name := fun _ _ _ _ hp => hp.name
  refine Picked.of_forall₂ style.name hall.flip hname (hc.of_append_right fun hold => ?_)
  exact Nat.not_lt.2 hnew (hd.child_lt hold)

/-- The copies of what the names lead to in the body. -/
theorem exists_copy {n : NodeId} (hp : d.descend t p = some (.node n)) :
    ∃ c, d₁.descend s (d.copyWay style s t p) = some (.node c) ∧ IsCopy t d d₁ n c := by
  cases p with
  | nil =>
    cases hp
    exact absurd rfl (h.root n)
  | cons q p =>
    obtain ⟨o, ho, hp⟩ := descend_cons.1 hp
    have hmem := (findChild_eq_some ho).1
    obtain ⟨c, hc, hplanted⟩ := h.picks_planted hd (picks_true.2 ho)
    simp only [copyWay]
    rw [ho, Option.any_some]
    rcases h.planted_cases hd hmem hplanted with ⟨hw, hcopy⟩ | ⟨hw, -, c', hcopy, hchildren⟩
    · obtain ⟨i, hi, hcopy⟩ := h.reaches_copy hd hcopy (reaches_true.2 hp)
      refine ⟨i, ?_, hcopy⟩
      rw [if_neg fun h => hw (wraps_eq_true.1 h)]
      exact reaches_true.1 (.cons hc hi)
    · obtain ⟨i, hi, hcopy'⟩ := h.reaches_copy hd hcopy (reaches_true.2 hp)
      refine ⟨i, ?_, hcopy'⟩
      rw [if_pos (wraps_eq_true.2 hw)]
      refine reaches_true.1 (.cons hc (.cons ((picks_singleton hchildren).2 ⟨rfl, ?_⟩) hi))
      rw [h.name_of_copy hcopy, (findChild_eq_some ho).2]

/-- The site shows the copies of all that the body shows. -/
theorem shows_transplant (hp : Transplant style (d.isChoice s) (d.Shows first t) p top k) :
    d₁.Shows first s p top k := by
  cases hp with
  | direct hp hw =>
    cases hp with
    | here ho =>
      obtain ⟨c, hc, hplanted⟩ := h.picks_planted hd ho
      rcases h.planted_cases hd ho.mem hplanted with ⟨-, hcopy⟩ | ⟨hw', -⟩
      · rw [← h.keyword_of_copy hcopy]
        exact .here hc
      · exact absurd hw' hw
    | there ho hp =>
      obtain ⟨c, hc, hplanted⟩ := h.picks_planted hd ho
      rcases h.planted_cases hd ho.mem hplanted with ⟨-, hcopy⟩ | ⟨hw', -⟩
      · rw [← h.keyword_of_copy hcopy]
        exact .there hc (h.shows_copy hd hcopy hp)
      · exact absurd hw' hw
  | wrapper hp hw =>
    cases hp with
    | here ho =>
      obtain ⟨c, hc, hplanted⟩ := h.picks_planted hd ho
      rcases h.planted_cases hd ho.mem hplanted with ⟨hw', -⟩ | ⟨-, hkeyword, -⟩
      · exact absurd hw hw'
      · have := Shows.here hc
        rwa [hkeyword] at this
    | there _ hp => exact absurd rfl hp.ne_nil
  | wrapped hp hw =>
    cases hp with
    | here ho =>
      obtain ⟨c, hc, hplanted⟩ := h.picks_planted hd ho
      rcases h.planted_cases hd ho.mem hplanted with ⟨hw', -⟩ | ⟨-, hkeyword, c', hcopy, hchildren⟩
      · exact absurd hw hw'
      · have honly : d₁.Picks first (.node c) (d₁.node c').name c' :=
          (picks_singleton hchildren).2 ⟨rfl, rfl⟩
        have hinside := Shows.here honly
        rw [h.keyword_of_copy hcopy, h.name_of_copy hcopy, ho.name_eq] at hinside
        have := Shows.there hc hinside
        rwa [hkeyword] at this
    | there ho hp =>
      obtain ⟨c, hc, hplanted⟩ := h.picks_planted hd ho
      rcases h.planted_cases hd ho.mem hplanted with ⟨hw', -⟩ | ⟨-, hkeyword, c', hcopy, hchildren⟩
      · exact absurd hw hw'
      · have hinside := Shows.there ((picks_singleton hchildren).2 ⟨rfl, rfl⟩)
          (h.shows_copy hd hcopy hp)
        rw [h.name_of_copy hcopy, ho.name_eq] at hinside
        have := Shows.there hc hinside
        rwa [hkeyword] at this

/-- What a new child of the site shows is such a copy. -/
theorem transplant_of_new (hc : d₁.Picks first s q c) (hnew : d.nodes.size ≤ c.index) :
    Transplant style (d.isChoice s) (d.Shows first t) [q] (d₁.node c).kind.keyword
        (d₁.node c).kind.keyword ∧
      ∀ p top k, d₁.Shows first (.node c) p top k →
        Transplant style (d.isChoice s) (d.Shows first t) (q :: p) (d₁.node c).kind.keyword k := by
  obtain ⟨o, ho, hplanted, rfl⟩ := h.picks_of_new hd hc hnew
  rcases h.planted_cases hd ho.mem hplanted with
    ⟨hw, hcopy⟩ | ⟨hw, hkeyword, c', hcopy, hchildren⟩
  · rw [h.keyword_of_copy hcopy]
    refine ⟨Transplant.direct (p := [_]) (Shows.here ho) hw, fun p top k hp => ?_⟩
    obtain ⟨p₀, rfl, hp₀⟩ := h.shows_of_copy hd hcopy hp
    exact Transplant.direct (p := _ :: p₀) (Shows.there ho hp₀) hw
  · rw [hkeyword]
    refine ⟨.wrapper (.here ho) hw, fun p top k hp => ?_⟩
    cases hp with
    | here hx =>
      obtain ⟨rfl, rfl⟩ := (picks_singleton hchildren).1 hx
      rw [h.name_of_copy hcopy, h.keyword_of_copy hcopy]
      exact Transplant.wrapped (p := []) (Shows.here ho) hw
    | there hx hp =>
      obtain ⟨rfl, rfl⟩ := (picks_singleton hchildren).1 hx
      obtain ⟨p₀, rfl, hp₀⟩ := h.shows_of_copy hd hcopy hp
      rw [h.name_of_copy hcopy]
      exact Transplant.wrapped (p := p₀) (Shows.there ho hp₀) hw

/-! ### Other places -/

/-- What is new is seen through the site only, as a transplant. -/
theorem showsVia_of_shows (hx : d.HasSite x) (hp : d₁.Shows first x p top k) :
    d.Shows first x p top k ∨
      ShowsVia d first s (Transplant style (d.isChoice s) (d.Shows first t)) x p top k := by
  have hk := h.changes.keeps
  have hd₁ := h.changes.sound
  -- a new child is one of the site
  have hsite : ∀ {x : Site} {q : QName} {c : NodeId}, d.HasSite x → d₁.Picks first x q c →
      d.nodes.size ≤ c.index → x = s := by
    intro x q c hx hc hnew
    refine Classical.byContradiction fun hne => ?_
    have hmem := hc.mem
    rw [h.children_of_ne x hx hne] at hmem
    exact Nat.not_lt.2 hnew (hd.child_lt hmem)
  induction hp with
  | @here x q c hc =>
    by_cases hlt : c.index < d.nodes.size
    · rw [hk.kind c hlt]
      exact .inl (.here (hk.picks_old hd hd₁ hc hlt))
    · have hnew := Nat.not_lt.1 hlt
      obtain rfl := hsite hx hc hnew
      exact .inr (.here (h.transplant_of_new hd hc hnew).1)
  | @there x q c p top' k hc hp ih =>
    by_cases hlt : c.index < d.nodes.size
    · have hcd := hk.picks_old hd hd₁ hc hlt
      rw [hk.kind c hlt]
      exact (ih hlt).imp (.there hcd) (.there hcd)
    · have hnew := Nat.not_lt.1 hlt
      obtain rfl := hsite hx hc hnew
      exact .inr (.here ((h.transplant_of_new hd hc hnew).2 p top' k hp))

/-- New nodes are seen through the site only. -/
theorem of_shows (hx : d.HasSite x) (hp : d₁.Shows first x p top k) :
    d.Shows first x p top k ∨ ∃ p₁ p₂ top', p = p₁ ++ p₂ ∧ d.Reaches first x p₁ s ∧
      (p₁ = [] → top' = top) ∧ Transplant style (d.isChoice s) (d.Shows first t) p₂ top' k :=
  (h.showsVia_of_shows hd hx hp).imp id ShowsVia.exists_reaches

end Takes

/-! ## Merged copies -/

/-- The node `c` was merged in as a copy of `o`. -/
structure MergedFrom (d : Draft) (o c : NodeId) : Prop where
  origin : (d.node c).origin = some o
  augmenting : (d.node c).facts.augmenting = true
  kind : (d.node c).kind = (d.node o).kind

theorem MergedFrom.keeps (h : d.MergedFrom o c) (hk : d.Keeps d₁) (hc : c.index < d.nodes.size)
    (ho : o.index < d.nodes.size) : d₁.MergedFrom o c where
  origin := (hk.origin c hc).trans h.origin
  augmenting := (hk.augmenting c hc).trans h.augmenting
  kind := by rw [hk.kind c hc, h.kind, hk.kind o ho]

/-- Copies that a merge makes. -/
theorem Takes.mergedFrom {s t : Site} (ht : Takes { augmenting := true } s t d d₁)
    (hc : IsCopy t d d₁ o c) : d₁.MergedFrom o c := by
  have hcopy := ht.copyOf hc
  refine ⟨hcopy.origin, ?_, ?_⟩
  · rw [hcopy.node]
    exact Bool.or_true _
  · rw [hcopy.kind, ht.changes.keeps.kind o (lt_of_under hc.under ht.root)]
    rfl

/-! ## Quiet changes -/

theorem Quiet.findChild (hd : d.Sound) (h : Quiet s d d₁) (hx : d.HasSite x) (q : QName) :
    d₁.findChild x q = d.findChild x q := by
  unfold Draft.findChild
  rw [h.children_eq x hx]
  exact List.find?_congr fun c hc => by rw [h.keeps.name c (hd.child_lt hc)]

/-- Nothing hangs anywhere that did not hang there before. -/
theorem Quiet.hasSite_of_under (hd : d.Sound) (h : Quiet s d d₁) (hx : d.HasSite x)
    (hy : d₁.Under t x) : d.HasSite t := by
  induction hy with
  | refl => exact hx
  | up hp _ ih =>
    have hmem := (h.sound.parent_iff _ _).2 hp
    rw [h.children_eq _ (ih hx)] at hmem
    exact hd.child_lt hmem

/-- Nothing new is seen after a quiet change. -/
theorem Quiet.of_shows (hd : d.Sound) (h : Quiet s d d₁) (hx : d.HasSite x)
    (hp : d₁.Shows first x p top k) : d.Shows first x p top k := by
  have hk := h.keeps
  have hold : ∀ {x : Site} {q : QName} {c : NodeId}, d.HasSite x → d₁.Picks first x q c →
      c.index < d.nodes.size := by
    intro x q c hx hc
    have hmem := hc.mem
    rw [h.children_eq x hx] at hmem
    exact hd.child_lt hmem
  induction hp with
  | here hc =>
    have hlt := hold hx hc
    rw [hk.kind _ hlt]
    exact .here (hk.picks_old hd h.sound hc hlt)
  | there hc _ ih =>
    have hlt := hold hx hc
    rw [hk.kind _ hlt]
    exact .there (hk.picks_old hd h.sound hc hlt) (ih hlt)

end Draft

end YangSchema
