import YangSchema.Proofs.Completeness

/-!
# Uses as replacements

The declared draft says already what its sites show when all uses are expanded: each uses stands for
the body of its grouping, in which each uses stands for a body again, and so on (`Draft.Unfolds`).  A
run that does nothing but expand uses never shows anything else (`OnlyUnfolds`), and when it has
expanded all of them, it shows all of it (`Run.shows_iff_unfolds`).
-/

namespace YangSchema

open Draft Edit

/-- What the site shows when every uses is replaced by the body of its grouping.  Under a choice a node
that is brought in and is no case stands in a case of its name. -/
inductive Draft.Unfolds (d : Draft) (tasks : List UsesTask) :
    Site → List QName → String → String → Prop
  | here {s : Site} {c : NodeId} (hc : c ∈ d.childrenOf s) :
    Unfolds d tasks s [(d.node c).name] (d.node c).kind.keyword (d.node c).kind.keyword
  | there {s : Site} {c : NodeId} {p : List QName} {top k : String} (hc : c ∈ d.childrenOf s)
    (h : Unfolds d tasks (.node c) p top k) :
    Unfolds d tasks s ((d.node c).name :: p) (d.node c).kind.keyword k
  | direct {t : UsesTask} {g : GroupingId} {p : List QName} {top k : String} (ht : t ∈ tasks)
    (hg : t.resolve d = some g) (h : Unfolds d tasks (.grouping g) p top k)
    (hw : ¬ (d.isChoice t.site = true ∧ top ≠ "case")) :
    Unfolds d tasks t.site (p.map t.style.name) top k
  | wrapper {t : UsesTask} {g : GroupingId} {q : QName} {top k : String} (ht : t ∈ tasks)
    (hg : t.resolve d = some g) (h : Unfolds d tasks (.grouping g) [q] top k)
    (hw : d.isChoice t.site = true ∧ top ≠ "case") :
    Unfolds d tasks t.site [t.style.name q] "case" "case"
  | wrapped {t : UsesTask} {g : GroupingId} {q : QName} {p : List QName} {top k : String}
    (ht : t ∈ tasks) (hg : t.resolve d = some g) (h : Unfolds d tasks (.grouping g) (q :: p) top k)
    (hw : d.isChoice t.site = true ∧ top ≠ "case") :
    Unfolds d tasks t.site (t.style.name q :: (q :: p).map t.style.name) "case" k

variable {d₀ d d₁ : Draft} {s x : Site} {i o : NodeId} {tasks : List UsesTask} {t : UsesTask}
  {g : GroupingId} {p : List QName} {top k : String}

theorem Draft.Unfolds.of_transplant (ht : t ∈ tasks) (hg : t.resolve d = some g)
    (h : Transplant t.style (d.isChoice t.site) (d.Unfolds tasks (.grouping g)) p top k) :
    d.Unfolds tasks t.site p top k := by
  cases h with
  | direct h hw => exact .direct ht hg h hw
  | wrapper h hw => exact .wrapper ht hg h hw
  | wrapped h hw => exact .wrapped ht hg h hw

/-- The declared sites show nothing but what they unfold to, and shorthand cases hold one node. -/
structure Draft.OnlyUnfolds (d₀ : Draft) (tasks : List UsesTask) (d : Draft) : Prop where
  shows : ∀ x, d₀.HasSite x → ∀ p top k, d.Shows false x p top k → d₀.Unfolds tasks x p top k
  single : ∀ x, d₀.HasSite x → ∀ i, d.Under (.node i) x → (d.node i).kind = .caseNode true →
    ∃ c, d.childrenOf (.node i) = [c]

namespace Draft.OnlyUnfolds

theorem refl (h : ∀ i, (d₀.node i).kind = .caseNode true → ∃ c, d₀.childrenOf (.node i) = [c]) :
    d₀.OnlyUnfolds tasks d₀ where
  shows x hx p top k hp := by
    clear hx
    induction hp with
    | here hc =>
      obtain ⟨hmem, rfl⟩ := hc
      exact .here hmem
    | there hc _ ih =>
      obtain ⟨hmem, rfl⟩ := hc
      exact .there hmem ih
  single _ _ i _ hk := h i hk

theorem quiet (h : d₀.OnlyUnfolds tasks d) (hd : d₀.Follows d) (hq : Quiet s d d₁) :
    d₀.OnlyUnfolds tasks d₁ where
  shows x hx p top k hp := h.shows x hx p top k (hq.of_shows hd.sound (hd.keeps.hasSite hx) hp)
  single x hx i hi hk := by
    have his := hq.hasSite_of_under hd.sound (hd.keeps.hasSite hx) hi
    rw [hq.keeps.kind i his] at hk
    rw [hq.children_eq _ his]
    exact h.single x hx i ((hq.keeps.under_iff hd.sound his).1 hi) hk

/-- What is seen through the place of a uses that is expanded. -/
theorem unfolds_of_showsVia (h₀ : d₀.Sound) (hd : d₀.Follows d) (hs : d₀.HasSite s)
    {V : List QName → String → String → Prop}
    (hV : ∀ p top k, V p top k → d₀.Unfolds tasks s p top k) (hx : d₀.HasSite x)
    (h : ShowsVia d false s V x p top k) : d₀.Unfolds tasks x p top k := by
  induction h with
  | here h => exact hV _ _ _ h
  | @there x q c p top k hc h ih =>
    -- the way to a declared site is declared
    have hold : d₀.HasSite (.node c) := by
      obtain ⟨p₁, _, _, -, hreach, -⟩ := h.exists_reaches
      have hunder := hreach.leads.under hd.sound
      exact h₀.hasSite_above ((hd.keeps.under_iff h₀ hs).1 hunder) hs
    obtain ⟨hmem, rfl⟩ := hd.keeps.picks_old h₀ hd.sound hc hold
    rw [hd.keeps.kind c hold]
    exact .there hmem (ih hold)

theorem single_copy (h : d₀.OnlyUnfolds tasks d) (hd : d.Sound) {style : CopyStyle} {b : Site}
    (ht : Takes style s b d d₁) (hbody : d.HasSite b → d₀.HasSite b) (hi : IsCopy b d d₁ o i)
    (hk : (d₁.node i).kind = .caseNode true) : ∃ c, d₁.childrenOf (.node i) = [c] := by
  rw [(ht.copyOf hi).kind, CopyStyle.kind_eq_caseNode] at hk
  have hbs := hbody (hd.hasSite_above hi.under (lt_of_under hi.under ht.root))
  obtain ⟨c, hc⟩ := h.single b hbs o hi.under hk
  have hall := ht.children_of_copy hd hi
  rw [hc] at hall
  cases hl : d₁.childrenOf (.node i) with
  | nil =>
    rw [hl] at hall
    cases hall
  | cons c' rest =>
    rw [hl] at hall
    cases hall with
    | cons _ hnil =>
      cases hnil
      exact ⟨c', rfl⟩

/-- A uses is expanded. -/
theorem takes (h : d₀.OnlyUnfolds tasks d) (h₀ : d₀.Sound) (hd : d₀.Follows d) (ht : t ∈ tasks)
    (hstands : t.Stands d₀) (hg : t.resolve d₀ = some g)
    (htakes : Takes t.style t.site (.grouping g) d d₁) : d₀.OnlyUnfolds tasks d₁ where
  shows x hx p top k hp := by
    rcases htakes.showsVia_of_shows hd.sound (hd.keeps.hasSite hx) hp with hp | hp
    · exact h.shows x hx p top k hp
    · refine unfolds_of_showsVia h₀ hd hstands.site (fun p top k hV => ?_) hx hp
      rw [hd.keeps.isChoice hstands.site] at hV
      refine .of_transplant ht hg (hV.mono fun p top k hp => ?_)
      refine h.shows _ (hd.hasSite_grouping ?_) p top k hp
      exact Classical.not_not.1 fun hno => not_shows_of_not_hasSite hno hp
  single x hx i hi hk := by
    have hk₁ := htakes.changes.keeps
    by_cases hlt : i.index < d.nodes.size
    · have hne : Site.node i ≠ t.site := by
        intro hsite
        rw [hk₁.kind i hlt] at hk
        have hi₀ := hstands.site
        rw [← hsite] at hi₀
        rw [hd.keeps.kind i hi₀] at hk
        exact hstands.plain i hsite.symm hk
      rw [htakes.children_of_ne (.node i) hlt hne]
      rw [hk₁.kind i hlt] at hk
      exact h.single x hx i ((hk₁.under_iff hd.sound (x := .node i) hlt).1 hi) hk
    cases hi with
    | refl => exact absurd (hd.keeps.hasSite hx) hlt
    | @up _ y _ hp hpx =>
      have hmem := (htakes.changes.sound.parent_iff y i).2 hp
      have hxd := hd.keeps.hasSite hx
      cases htakes.freshAt hd.sound hxd hpx hmem (Nat.not_lt.1 hlt) with
      | planted _ ho hi =>
        rcases htakes.planted_cases hd.sound ho hi with ⟨-, hcopy⟩ | ⟨-, -, c, -, hc⟩
        · exact h.single_copy hd.sound htakes hd.hasSite_grouping hcopy hk
        · exact ⟨c, hc⟩
      | copied _ _ hi => exact h.single_copy hd.sound htakes hd.hasSite_grouping hi hk
      | wrapped _ _ _ _ hi => exact h.single_copy hd.sound htakes hd.hasSite_grouping hi hk

end Draft.OnlyUnfolds

/-! ## Runs -/

theorem Makes.onlyUnfolds (h₀ : d₀.Sound) {gs : List Graft} (h : Makes d₀ gs d d₁)
    (hgs : ∀ a ∈ gs, ∃ t ∈ tasks, ∃ g, t.Stands d₀ ∧ t.resolve d₀ = some g ∧
      a = ⟨t.style, t.site, [], .grouping g⟩) (hd : d₀.OnlyUnfolds tasks d) :
    d₀.OnlyUnfolds tasks d₁ := by
  induction h with
  | nil => exact hd
  | quiet hfollows hq _ ih => exact ih hgs (hd.quiet hfollows hq)
  | graft hfollows hmade _ ih =>
    obtain ⟨t, ht, g, hstands, hg, rfl⟩ := hgs _ List.mem_cons_self
    obtain ⟨s, hs, htakes⟩ := hmade
    cases hs
    exact ih (fun a ha => hgs a (List.mem_cons_of_mem _ ha))
      (hd.takes h₀ hfollows ht hstands hg htakes)

section Run

variable {S : Stage} {ms : List Move}

/-- The graft of a uses without augmentations. -/
theorem UsesTask.grafts_eq (hinner : (d₀.usesOf t.uses).augmentations = [])
    {a : Graft} (ha : a ∈ t.grafts d₀) :
    ∃ g, t.resolve d₀ = some g ∧ a = ⟨t.style, t.site, [], .grouping g⟩ := by
  unfold grafts innerGrafts at ha
  rw [hinner] at ha
  split at ha
  · cases ha
  · next g hg => exact ⟨g, hg, List.mem_singleton.1 ha⟩

theorem Run.onlyUnfolds {S₀ : Stage} (h₀ : S₀.From d₀) (haug : S₀.augments = [])
    (hsub : ∀ t ∈ S₀.uses, t ∈ tasks ∧ (d₀.usesOf t.uses).augmentations = [])
    (hd : d₀.OnlyUnfolds tasks S₀.draft) (h : Run S₀ ms S) : d₀.OnlyUnfolds tasks S.draft := by
  induction h with
  | nil => exact hd
  | @cons S₀ S₁ S m ms hs _ ih =>
    have haug₁ : S₁.augments = [] := List.eq_nil_iff_forall_not_mem.2 fun u hu => by
      have := hs.augments_subset hu
      rw [haug] at this
      cases this
    refine ih (hs.from h₀) haug₁ (fun t ht => hsub t (hs.uses_subset ht)) ?_
    refine (hs.makes h₀).onlyUnfolds h₀.start (fun a ha => ?_) hd
    cases hs with
    | @expand pre post augments d d' t h =>
      have ht : t ∈ pre ++ t :: post := by simp
      obtain ⟨hmem, hinner⟩ := hsub t ht
      obtain ⟨g, hg, rfl⟩ := UsesTask.grafts_eq hinner ha
      exact ⟨t, hmem, g, h₀.stands t ht, hg, rfl⟩
    | merge => simp at haug

/-- What the uses bring in is shown once they are expanded. -/
theorem Run.shows_of_unfolds {S₀ : Stage} (h₀ : S₀.From d₀) (h : Run S₀ ms ⟨[], [], d⟩)
    (hp : d₀.Unfolds S₀.uses s p top k) : d.Shows false s p top k := by
  have hd := (h.from h₀).follows
  have hmoves : ∀ t ∈ S₀.uses, Move.expand t ∈ ms := fun t ht => by
    have hmem := h.perm.subset (List.mem_append_left _ (List.mem_map_of_mem ht))
    simpa using hmem
  have hbrings : ∀ {t : UsesTask} {g : GroupingId} {p : List QName} {top k : String}, t ∈ S₀.uses →
      t.resolve d₀ = some g →
      Transplant t.style (d₀.isChoice t.site) (d.Shows false (.grouping g)) p top k →
      d.Shows false t.site p top k := by
    intro t g p top k ht hg hV
    have hmem : (⟨t.style, t.site, [], .grouping g⟩ : Graft) ∈ (Move.expand t).grafts d₀ := by
      show _ ∈ t.grafts d₀
      unfold UsesTask.grafts
      rw [hg]
      exact List.mem_cons_self
    obtain ⟨a, b, ha, ⟨s, hs, htakes⟩, hb, -, hshows⟩ := h.exists_made h₀ (hmoves t ht) hmem
    cases hs
    refine hb.shows htakes.changes.sound (htakes.shows_transplant ha.sound ?_)
    rw [ha.keeps.isChoice (h₀.stands t ht).site]
    exact hV.mono fun p top k hp => hshows false p top k hp
  induction hp with
  | here hc => exact hd.keeps.shows h₀.start (.here ⟨hc, rfl⟩)
  | @there s c p top k hc _ ih =>
    rw [← hd.keeps.kind c (h₀.start.child_lt hc)]
    exact .there (hd.keeps.picks h₀.start ⟨hc, rfl⟩) ih
  | direct ht hg _ hw ih => exact hbrings ht hg (.direct ih hw)
  | wrapper ht hg _ hw ih => exact hbrings ht hg (.wrapper ih hw)
  | wrapped ht hg _ hw ih => exact hbrings ht hg (.wrapped ih hw)

/-- A run that carries out all tasks, and these are nothing but uses, shows at the declared sites what
they unfold to. -/
theorem Run.shows_iff_unfolds {S₀ : Stage} (h₀ : S₀.From d₀) (haug : S₀.augments = [])
    (hinner : ∀ t ∈ S₀.uses, (d₀.usesOf t.uses).augmentations = [])
    (hd : d₀.OnlyUnfolds S₀.uses S₀.draft) (h : Run S₀ ms ⟨[], [], d⟩) (hs : d₀.HasSite s) :
    d.Shows false s p top k ↔ d₀.Unfolds S₀.uses s p top k :=
  ⟨(h.onlyUnfolds h₀ haug (fun t ht => ⟨ht, hinner t ht⟩) hd).shows s hs p top k,
    h.shows_of_unfolds h₀⟩

end Run

end YangSchema
