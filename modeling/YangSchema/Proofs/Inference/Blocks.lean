import YangSchema.Proofs.Inference.Discerning
import YangSchema.Proofs.Inference.Rounds

/-!
# Where the copies of a grouping stand

The children of a site go on, and what is new has names that the site did not have (`Draft.Sprouts`).
An expansion adds to its site one child for each node of the grouping, in their order, and nothing else.
Nothing is changed in the grouping afterwards, so at the end of a run these children are the copies of
the grouping at the site (`Draft.CopiesOf`).  If two uses of one site are expanded, those of the one that
is expanded first stand first (`Run.copiedBefore`).
-/

namespace YangSchema

open Draft Edit

namespace Draft

variable {style : CopyStyle} {d d₁ d₂ : Draft} {s t : Site} {body cs : List NodeId} {a : AugmentId}
  {c n o : NodeId} {g k : GroupingId}

/-! ## New children -/

/-- The children of every site go on with new ones, whose names the site did not have. -/
structure Sprouts (d d₁ : Draft) : Prop where
  keeps : d.Keeps d₁
  children : ∀ s, d.HasSite s → ∃ news, d₁.childrenOf s = d.childrenOf s ++ news ∧
    ∀ c ∈ news, (d₁.node c).name ∉ d.siblings s

theorem Sprouts.of_children_eq (hk : d.Keeps d₁)
    (h : ∀ s, d.HasSite s → d₁.childrenOf s = d.childrenOf s) : d.Sprouts d₁ where
  keeps := hk
  children s hs := ⟨[], by rw [h s hs, List.append_nil], fun _ hc => absurd hc List.not_mem_nil⟩

theorem Sprouts.refl (d : Draft) : d.Sprouts d := .of_children_eq (.refl d) fun _ _ => rfl

theorem Quiet.sprouts (h : Quiet s d d₁) : d.Sprouts d₁ := .of_children_eq h.keeps h.children_eq

theorem Keeps.siblings_subset (h : d.Keeps d₁) (hd : d.Sound) (hs : d.HasSite s) :
    d.siblings s ⊆ d₁.siblings s := by
  intro q hq
  obtain ⟨c, hc, rfl⟩ := List.mem_map.1 hq
  rw [← h.name c (hd.child_lt hc)]
  exact List.mem_map_of_mem ((h.children s hs).subset hc)

theorem Sprouts.trans (h : d.Sprouts d₁) (hd : d.Sound) (hd₁ : d₁.Sound) (h' : d₁.Sprouts d₂) :
    d.Sprouts d₂ where
  keeps := h.keeps.trans h'.keeps
  children s hs := by
    obtain ⟨news, hnews, hnew⟩ := h.children s hs
    obtain ⟨more, hmore, hnew'⟩ := h'.children s (h.keeps.hasSite hs)
    refine ⟨news ++ more, by rw [hmore, hnews, List.append_assoc], fun c hc => ?_⟩
    rcases List.mem_append.1 hc with hc | hc
    · have hmem : c ∈ d₁.childrenOf s := hnews ▸ List.mem_append_right _ hc
      rw [h'.keeps.name c (hd₁.child_lt hmem)]
      exact hnew c hc
    · exact fun hmem => hnew' c hc (h.keeps.siblings_subset hd hs hmem)

/-- What has the name of one that was added once was added then. -/
theorem Sprouts.mem_of_name_eq (h : d.Sprouts d₁) (h' : d₁.Sprouts d₂) (hd : d.Sound) (hd₁ : d₁.Sound)
    (hs : d.HasSite s) (hcs : d₁.childrenOf s = d.childrenOf s ++ cs) (hn : n ∈ cs)
    (hc : c ∈ d₂.childrenOf s) (hname : (d₂.node c).name = (d₂.node n).name) : c ∈ cs := by
  obtain ⟨news, hnews, hnew⟩ := h.children s hs
  obtain rfl : news = cs := List.append_cancel_left (hnews.symm.trans hcs)
  have hmem : n ∈ d₁.childrenOf s := hcs ▸ List.mem_append_right _ hn
  rw [h'.keeps.name n (hd₁.child_lt hmem)] at hname
  obtain ⟨more, hmore, hnew'⟩ := h'.children s (h.keeps.hasSite hs)
  rw [hmore, hcs] at hc
  rcases List.mem_append.1 hc with hc | hlater
  · refine (List.mem_append.1 hc).resolve_left fun hbefore => hnew n hn ?_
    rw [← hname, (h.keeps.trans h'.keeps).name c (hd.child_lt hbefore)]
    exact List.mem_map_of_mem hbefore
  · refine absurd ?_ (hnew' c hlater)
    rw [hname]
    exact List.mem_map_of_mem hmem

theorem Grafted.sprouts (h : Grafted style s body d d₁)
    (hfresh : ∀ x ∈ body, d.findChild s (style.name (d.node x).name) = none) : d.Sprouts d₁ where
  keeps := h.changes.keeps
  children t ht := by
    by_cases hts : t = s
    · subst hts
      obtain ⟨news, hnews, hall⟩ := h.children_self
      refine ⟨news, hnews, fun c hc => ?_⟩
      obtain ⟨x, hx, hplanted⟩ := exists_of_forall₂_right hall hc
      rw [hplanted.name]
      exact not_mem_siblings (hfresh x hx)
    · exact ⟨[], by rw [h.children_of_ne t ht hts, List.append_nil], fun _ hc =>
        absurd hc List.not_mem_nil⟩

theorem Merged.sprouts (h : Merged a n d d₁) (hd : d.Sound) : d.Sprouts d₁ := by
  obtain ⟨d₂, hg, hq⟩ := h.exists_grafted
  exact (hg.sprouts h.fresh).trans hd hg.changes.sound hq.sprouts

theorem MergedAll.sprouts {l : List AugmentId} (h : MergedAll s l d d₁) (hd : d.Sound) :
    d.Sprouts d₁ := by
  induction h with
  | nil => exact .refl _
  | cons _ hm _ ih =>
    have hsound := (hm.changes hd).sound
    exact (hm.sprouts hd).trans hd hsound (ih hsound)

/-- Merging below a site adds nothing to the site itself. -/
theorem MergedAll.childrenOf_self {l : List AugmentId} (h : MergedAll s l d d₁) (hd : d.Sound)
    (hs : d.HasSite s) : d₁.childrenOf s = d.childrenOf s := by
  induction h with
  | nil => rfl
  | @cons a l n d d₁ d₂ hn hm _ ih =>
    have hch := hm.changes hd
    have hne : s ≠ .node n := by
      rintro rfl
      exact hd.findDescendant_ne _ hn
    obtain ⟨d₃, hg, hq⟩ := hm.exists_grafted
    rw [ih hch.sound (hch.keeps.hasSite hs), hq.children_eq s (hg.changes.keeps.hasSite hs),
      hg.children_of_ne s hs hne]

/-! ## Copies -/

/-- The node `c` stands for a copy of `o` at the site: it is the copy, or a shorthand case around it, and
has the name of `o` in the module of the site. -/
structure StandsFor (d : Draft) (s : Site) (o c : NodeId) : Prop where
  name : (d.node c).name = (d.node o).name.bindTo (d.homeAt s)
  origin : (d.node c).origin = some o ∨ (d.node c).kind = .caseNode true ∧
    ∃ x rest, d.childrenOf (.node c) = x :: rest ∧ (d.node x).origin = some o

theorem StandsFor.lt (h : d.StandsFor s o c) : c.index < d.nodes.size := by
  rcases h.origin with ho | ⟨-, x, rest, hx, -⟩
  · refine Nat.lt_of_not_le fun hle => ?_
    rw [node_of_size_le hle] at ho
    cases ho
  · exact hasSite_of_mem_childrenOf (s := .node c) (hx ▸ List.mem_cons_self)

theorem StandsFor.keeps (h : d.StandsFor s o c) (hd : d.Sound) (hk : d.Keeps d₁) (hs : d.HasSite s)
    (ho : o.index < d.nodes.size) : d₁.StandsFor s o c where
  name := by rw [hk.name c h.lt, hk.name o ho, hk.homeAt hs, h.name]
  origin := by
    rw [hk.origin c h.lt, hk.kind c h.lt]
    refine h.origin.imp_right fun ⟨hkind, x, rest, hx, hcopy⟩ => ⟨hkind, x, ?_⟩
    have hmem : x ∈ d.childrenOf (.node c) := hx ▸ List.mem_cons_self
    obtain ⟨more, hmore⟩ := hk.children (.node c) h.lt
    rw [hx, List.cons_append] at hmore
    exact ⟨rest ++ more, hmore.symm, by rw [hk.origin x (hd.child_lt hmem), hcopy]⟩

theorem Planted.standsFor (h : Planted style s d d₁ o c) (hk : d.Keeps d₁) (hs : d.HasSite s)
    (ho : o.index < d.nodes.size) (hstyle : style.bindTo = some (d.homeAt s)) : d₁.StandsFor s o c where
  name := by
    rw [h.name, hk.name o ho, hk.homeAt hs, CopyStyle.name, hstyle]
  origin := by
    cases hw : d.wraps s o with
    | false => exact .inl (h.direct hw)
    | true =>
      obtain ⟨hkind, -, x, hx, hcopy⟩ := h.wrapped hw
      exact .inr ⟨hkind, x, [], hx, hcopy⟩

/-- The copies of the grouping at the site are these, one for each of its nodes. -/
structure CopiesOf (d : Draft) (s : Site) (g : GroupingId) (cs : List NodeId) : Prop where
  each : List.Forall₂ (d.StandsFor s) (d.childrenOf (.grouping g)) cs
  all : ∀ c ∈ d.childrenOf s, ∀ o ∈ d.childrenOf (.grouping g), d.StandsFor s o c → c ∈ cs

/-- At the site all copies of the grouping `g` stand before all those of `k`. -/
def CopiedBefore (d : Draft) (s : Site) (g k : GroupingId) : Prop :=
  ∃ cs cs', d.CopiesOf s g cs ∧ d.CopiesOf s k cs' ∧ (cs ++ cs').Sublist (d.childrenOf s)

end Draft

/-! ## What a run adds -/

section Runs

variable {d₀ d d' : Draft} {t u : UsesTask} {g : GroupingId} {S S' S'' : Stage} {m : Move}
  {ms ms' : List Move}

theorem UsesTask.Expanded.sprouts (h : t.Expanded g d d') (hd : d.Sound) (hs : d.HasSite t.site) :
    d.Sprouts d' := by
  obtain ⟨d₁, d₂, d₃, hq, hg, hq', hm⟩ := h.exists_grafted hd
  have hfresh : ∀ x ∈ (d.grouping g).children,
      d₁.findChild t.site (t.style.name (d₁.node x).name) = none := by
    intro x hx
    rw [hq.findChild hd hs, hq.keeps.name x (hd.child_lt (s := .grouping g) hx)]
    exact h.fresh x hx
  have h₂ := hq.sprouts.trans hd hq.sound (hg.sprouts hfresh)
  have h₃ := h₂.trans hd hg.changes.sound hq'.sprouts
  exact h₃.trans hd hq'.sound (hm.sprouts hq'.sound)

/-- An expansion adds copies of the nodes of the grouping to its site, and nothing else. -/
theorem UsesTask.Expanded.exists_copies (h : t.Expanded g d d') (hd : d.Sound) (hs : d.HasSite t.site)
    (hhome : d.homeAt t.site = t.home) : ∃ cs, d'.childrenOf t.site = d.childrenOf t.site ++ cs ∧
      List.Forall₂ (d'.StandsFor t.site) (d.childrenOf (.grouping g)) cs := by
  obtain ⟨d₁, d₂, d₃, hq, hg, hq', hm⟩ := h.exists_grafted hd
  have hs₁ := hq.keeps.hasSite hs
  have hs₂ := hg.changes.keeps.hasSite hs₁
  have hs₃ := hq'.keeps.hasSite hs₂
  obtain ⟨cs, hcs, hall⟩ := hg.children_self
  refine ⟨cs, ?_, ?_⟩
  · rw [hm.childrenOf_self hq'.sound hs₃, hq'.children_eq _ hs₂, hcs, hq.children_eq _ hs]
  · have hstyle : t.style.bindTo = some (d₁.homeAt t.site) := by
      rw [hq.keeps.homeAt hs, hhome]
      rfl
    have hthere : ∀ o ∈ d.childrenOf (.grouping g), o.index < d₁.nodes.size := fun o ho =>
      Nat.lt_of_lt_of_le (hd.child_lt ho) hq.keeps.nodes_le
    refine ((List.forall₂_and_left _ _).2 ⟨hthere, hall⟩).imp ?_
    rintro o c ⟨ho, hplanted⟩
    exact (hplanted.standsFor hg.changes.keeps hs₁ ho hstyle).keeps hg.changes.sound
      (hq'.keeps.trans (hm.changes hq'.sound).keeps) hs₂ (Nat.lt_of_lt_of_le ho hg.changes.keeps.nodes_le)

theorem Step.sprouts (hS : S.Ready) (h : Step S m S') : S.draft.Sprouts S'.draft := by
  rcases h.cases hS with
    ⟨pre, t, post, g, -, huses, -, -, -, hg⟩ | ⟨pre, t, post, n, -, -, -, -, -, -, -, hm⟩
  · exact hg.sprouts hS.sound (hS.fits t (by rw [huses]; simp)).site
  · exact hm.sprouts hS.sound

theorem Run.sprouts (hS : S.Ready) (h : Run S ms S') : S.draft.Sprouts S'.draft := by
  induction h with
  | nil => exact .refl _
  | cons hs _ ih =>
    have hS' := hs.ready hS
    exact (hs.sprouts hS).trans hS.sound hS'.sound (ih hS')

/-- From an expansion on, what it added to its site are the copies of the grouping there. -/
theorem Step.exists_copies (hS : S.From d₀) (h : Step S (.expand t) S') (hrest : Run S' ms S'') :
    ∃ g cs, t.resolve d₀ = some g ∧
      S'.draft.childrenOf t.site = S.draft.childrenOf t.site ++ cs ∧ S''.draft.CopiesOf t.site g cs := by
  rcases h.cases hS.toReady with
    ⟨pre, u, post, g, hm, huses, -, -, hwait, hg⟩ | ⟨_, _, _, _, hm, -⟩
  swap
  · cases hm
  cases hm
  have ht : t ∈ S.uses := by rw [huses]; simp
  have hd := hS.sound
  have hs : S.draft.HasSite t.site := (hS.fits t ht).site
  have hS' := h.from hS
  have hstep := h.sprouts hS.toReady
  have hlater := hrest.sprouts hS'.toReady
  have hhome : S.draft.homeAt t.site = t.home :=
    (hS.follows.keeps.homeAt (hS.stands t ht).site).trans (hS.stands t ht).home
  obtain ⟨cs, hcs, hall⟩ := hg.exists_copies hd hs hhome
  -- nothing was left to do in the grouping
  have hsettled := (Stage.Copies.grouping huses hwait hg.resolve).settled hS.toLexical
  have hbody : S''.draft.childrenOf (.grouping g) = S.draft.childrenOf (.grouping g) :=
    (hsettled.run hS.toReady (.cons h hrest)).1.children
  have heach : List.Forall₂ (S''.draft.StandsFor t.site) (S''.draft.childrenOf (.grouping g)) cs := by
    have hthere : ∀ o ∈ S.draft.childrenOf (.grouping g), o.index < S'.draft.nodes.size := fun o ho =>
      Nat.lt_of_lt_of_le (hd.child_lt ho) hstep.keeps.nodes_le
    rw [hbody]
    refine ((List.forall₂_and_left _ _).2 ⟨hthere, hall⟩).imp ?_
    rintro o c ⟨ho, hoc⟩
    exact hoc.keeps hS'.sound hlater.keeps (hstep.keeps.hasSite hs) ho
  refine ⟨g, cs, (hS.follows.resolve t).symm.trans hg.resolve, hcs, heach, fun c hc o ho hoc => ?_⟩
  obtain ⟨n, hn, hon⟩ := exists_of_forall₂_right heach.flip ho
  exact hstep.mem_of_name_eq hlater hd hS'.sound hs hcs hn hc (hoc.name.trans hon.name.symm)

/-- What is expanded in a run adds its copies behind all that the site had before the run. -/
theorem Run.exists_copies (hS : S.From d₀) (h : Run S ms S') (ht : t ∈ expands ms)
    (hrest : Run S' ms' S'') : ∃ g cs, t.resolve d₀ = some g ∧
      (S.draft.childrenOf t.site ++ cs).Sublist (S'.draft.childrenOf t.site) ∧
      S''.draft.CopiesOf t.site g cs := by
  have hs : S.draft.HasSite t.site :=
    (hS.fits t (h.perm_expands.symm.subset (List.mem_append_left _ ht))).site
  obtain ⟨m, hm, hmt⟩ := List.mem_filterMap.1 ht
  cases m with
  | merge => cases hmt
  | expand u =>
    obtain rfl : t = u := (Option.some.inj hmt).symm
    obtain ⟨l, l', rfl⟩ := List.append_of_mem hm
    obtain ⟨S₁, h₁, h⟩ := h.exists_of_append
    cases h with
    | @cons _ S₂ _ _ _ hstep h₂ =>
      have hS₁ := h₁.from hS
      obtain ⟨g, cs, hg, hcs, hcopies⟩ := hstep.exists_copies hS₁ (h₂.append hrest)
      have hk₁ := h₁.keeps hS.toReady
      have hk₂ := hk₁.trans (hstep.sprouts hS₁.toReady).keeps
      have hbefore := hk₁.children t.site hs
      have hafter := (h₂.keeps (hstep.ready hS₁.toReady)).children t.site (hk₂.hasSite hs)
      rw [hcs] at hafter
      exact ⟨g, cs, hg, (hbefore.sublist.append_right cs).trans hafter.sublist, hcopies⟩

/-- Of two uses of one site, the copies of the one that is expanded first stand first. -/
theorem Run.copiedBefore (hS : S.From d₀) (h : Run S ms S') (htu : [t, u].Sublist (expands ms))
    (hsite : t.site = u.site) : ∃ g k, t.resolve d₀ = some g ∧ u.resolve d₀ = some k ∧
      S'.draft.CopiedBefore t.site g k := by
  obtain ⟨r, r', hms, ht, hu⟩ := List.cons_sublist_iff.1 htu
  obtain ⟨l, l', rfl, rfl, rfl⟩ := List.filterMap_eq_append_iff.1 hms
  obtain ⟨S₁, h₁, h₂⟩ := h.exists_of_append
  have hS₁ := h₁.from hS
  obtain ⟨g, cs, hg, hsub, hcopies⟩ := h₁.exists_copies hS ht h₂
  obtain ⟨k, cs', hk, hsub', hcopies'⟩ := h₂.exists_copies hS₁ (List.singleton_sublist.1 hu) (.nil S')
  rw [← hsite] at hsub' hcopies'
  refine ⟨g, k, hg, hk, cs, cs', hcopies, hcopies', ?_⟩
  exact (((List.sublist_append_right _ _).trans hsub).append_right cs').trans hsub'

end Runs

end YangSchema
