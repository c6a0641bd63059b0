import YangSchema.Proofs.Inference.Grafts

/-!
# The order of the tasks does not matter

Take a run after which every task that is left is held back, and no uses is left.  Whatever any other
run brings, this run has brought, too: the grafts of the other run were made in this one, from bodies
that showed at least as much (`Graft.shownIn`), or their targets are there in neither
(`Run.shownIn`).  So a target that is missing in the end cannot be reached in any order
(`Run.findDataNode_eq_none`).
-/

namespace YangSchema

open Draft Edit

variable {d₀ d d₁ d' : Draft} {x y s s' : Site} {p q : List QName} {b : Owner} {g : Graft}

/-! ## What a body shows -/

namespace Draft

/-- A body that stays the same shows no more than before. -/
theorem SameBody.of_shows (hd : d.Sound) (h : SameBody b d d₁) {first : Bool} {top k : String}
    (hx : d.Under x b.site) (hp : d₁.Shows first x p top k) : d.Shows first x p top k := by
  have hpick : ∀ {x : Site} {q : QName} {c : NodeId}, d.Under x b.site → d₁.Picks first x q c →
      d.Picks first x q c := by
    intro x q c hx hc
    have hchildren : d₁.childrenOf x = d.childrenOf x := by
      cases x with
      | node i =>
        show (d₁.node i).children = _
        rw [h.nodes i hx]
        rfl
      | _ =>
        rw [hx.eq_of_root fun i hi => (by cases hi)]
        exact h.children
    unfold Picks at hc
    rw [hchildren] at hc
    exact (Picked.congr fun c hc => by rw [h.nodes c (hd.under_of_mem hx hc)]).1 hc
  induction hp with
  | here hc =>
    have hcd := hpick hx hc
    rw [h.nodes _ (hd.under_of_mem hx hcd.mem)]
    exact .here hcd
  | there hc _ ih =>
    have hcd := hpick hx hc
    have hunder := hd.under_of_mem hx hcd.mem
    rw [h.nodes _ hunder]
    exact .there hcd (ih hunder)

/-- The keyword of the first node is determined by its name. -/
theorem Shows.top_unique {q : QName} {p p' : List QName} {top top' k k' : String}
    (h : d.Shows true s (q :: p) top k) (h' : d.Shows true s (q :: p') top' k') : top = top' := by
  have htop : ∀ {p : List QName} {top k : String}, d.Shows true s (q :: p) top k →
      ∃ c, d.findChild s q = some c ∧ top = (d.node c).kind.keyword := by
    intro p top k h
    cases h with
    | here hc => exact ⟨_, hc, rfl⟩
    | there hc _ => exact ⟨_, hc, rfl⟩
  obtain ⟨c, hc, rfl⟩ := htop h
  obtain ⟨c', hc', rfl⟩ := htop h'
  rw [hc] at hc'
  rw [Option.some.inj hc']

/-! ## Places in two drafts -/

/-- Between declared sites, the same ways lead in all drafts. -/
theorem Follows.descend (h₀ : d₀.Sound) (hd : d₀.Follows d) (hd' : d₀.Follows d')
    (hx : d₀.HasSite x) (h : d.descend y p = some x) : d'.descend y p = some x := by
  refine hd'.keeps.descend h₀ (reaches_true.1 ?_)
  exact hd.keeps.reaches_old h₀ hd.sound (reaches_true.2 h) hx

/-- Two ways from declared sites that lead to one place do so in all drafts. -/
theorem Follows.descend_alike (h₀ : d₀.Sound) (hd : d₀.Follows d) (hd' : d₀.Follows d')
    (hx : d₀.HasSite x) (hy : d₀.HasSite y) (hp : d.descend x p = some s)
    (hq : d.descend y q = some s) (hq' : d'.descend y q = some s') : d'.descend x p = some s' := by
  have hsx := (Leads.of_descend hp).under hd.sound
  have hsy := (Leads.of_descend hq).under hd.sound
  rcases hsx.total hsy with hxy | hyx
  · -- the way from `y` passes `x`
    obtain ⟨q₁, q₂, rfl, h₁, h₂⟩ := descend_through hd.sound hq hsx hxy
    obtain rfl := (Leads.of_descend h₂).path_unique hd.sound (Leads.of_descend hp)
    obtain ⟨x', hx', hs'⟩ := descend_append_eq_some.1 hq'
    rw [Follows.descend h₀ hd hd' hx h₁] at hx'
    rw [Option.some.inj hx']
    exact hs'
  · -- the way from `x` passes `y`
    obtain ⟨p₁, p₂, rfl, h₁, h₂⟩ := descend_through hd.sound hp hsy hyx
    obtain rfl := (Leads.of_descend h₂).path_unique hd.sound (Leads.of_descend hq)
    exact descend_append_eq_some.2 ⟨y, Follows.descend h₀ hd hd' hy h₁, hq'⟩

/-! ## Comparing drafts -/

/-- All that is found in `d` from declared sites is found in `d'`. -/
def ShownIn (d₀ d d' : Draft) : Prop :=
  ∀ x, d₀.HasSite x → ∀ p top k, d.Shows true x p top k → d'.Shows true x p top k

theorem ShownIn.isChoice (hd : d₀.Follows d) (hd' : d₀.Follows d') (hin : ShownIn d₀ d d')
    (hx : d₀.HasSite x) (hp : d.descend x p = some s) (hp' : d'.descend x p = some s') :
    d'.isChoice s' = d.isChoice s := by
  rcases List.eq_nil_or_concat p with rfl | hne
  · cases hp
    cases hp'
    rw [hd'.keeps.isChoice hx, hd.keeps.isChoice hx]
  have hne : p ≠ [] := by
    obtain ⟨_, _, rfl⟩ := hne
    simp
  obtain ⟨n, rfl⟩ := exists_node_of_descend hne hp
  obtain ⟨top, hshows⟩ := (reaches_true.2 hp).shows hne
  obtain ⟨n', hn', hkeyword⟩ := (hin x hx p top _ hshows).exists_reaches
  rw [reaches_true, hp'] at hn'
  rw [Option.some.inj hn']
  exact NodeKind.isChoice_eq hkeyword

end Draft

/-- In a draft before `d'` the graft was made, from a body that holds all that it holds in `d'`. -/
def Graft.MadeIn (g : Graft) (d₀ d' : Draft) : Prop :=
  ∃ a b, d₀.Follows a ∧ g.Made a b ∧ b.Keeps d' ∧
    d'.childrenOf g.body.site = a.childrenOf g.body.site ∧
    ∀ p top k, d'.Shows true g.body.site p top k → a.Shows true g.body.site p top k

/-- The graft goes from a declared body to a place below a declared site. -/
structure Graft.Declared (g : Graft) (d₀ : Draft) : Prop where
  anchor : d₀.HasSite g.anchor
  body : ∀ a, g.body = .augment a → a.index < d₀.augments.size

theorem Draft.Follows.hasSite_body (hd : d₀.Follows d) (hg : g.Declared d₀)
    (h : d.HasSite g.body.site) : d₀.HasSite g.body.site := by
  cases hb : g.body with
  | grouping i =>
    rw [hb] at h
    show _ < _
    rw [← hd.groupings_size]
    exact h
  | augment a => exact hg.body a hb

/-- A graft shows nothing that is not in a draft where it was made, too. -/
theorem Graft.shownIn (h₀ : d₀.Sound) (hd : d₀.Follows d) (hd' : d₀.Follows d')
    (hin : ShownIn d₀ d d') (hdecl : g.Declared d₀) (hg : g.Made d d₁) (hg' : g.MadeIn d₀ d') :
    ShownIn d₀ d₁ d' := by
  intro x hx p top k hp
  obtain ⟨s, hs, ht⟩ := hg
  obtain ⟨a, b, ha, ⟨s', hs', ht'⟩, hbd, -, hbody⟩ := hg'
  rcases ht.of_shows hd.sound (hd.keeps.hasSite hx) hp with
    hp' | ⟨p₁, p₂, top', rfl, hreach, htop, htrans⟩
  · exact hin x hx p top k hp'
  have had : a.Keeps d' := ht'.changes.keeps.trans hbd
  have hsd' : d'.descend g.anchor g.way = some s' := had.descend ha.sound hs'
  have hway : d'.descend x p₁ = some s' :=
    Follows.descend_alike h₀ hd hd' hx hdecl.anchor (reaches_true.1 hreach) hs hsd'
  -- the site is a choice in both drafts or in none
  have hchoice : a.isChoice s' = d.isChoice s := by
    rw [← hin.isChoice hd hd' hdecl.anchor hs hsd']
    refine (had.isChoice ?_).symm
    exact hasSite_of_under ((Leads.of_descend hs').under ha.sound) (ha.keeps.hasSite hdecl.anchor)
  -- the body showed as much when the graft was made
  have htrans' : Transplant g.style (a.isChoice s') (a.Shows true g.body.site) p₂ top' k := by
    rw [hchoice]
    refine htrans.mono fun p top k h => hbody p top k (hin _ ?_ p top k h)
    refine hd.hasSite_body hdecl (Classical.not_not.1 fun hno => ?_)
    exact not_shows_of_not_hasSite hno h
  have hshows : d'.Shows true s' p₂ top' k :=
    hbd.shows ht'.changes.sound (ht'.shows_transplant ha.sound htrans')
  cases p₁ with
  | nil =>
    cases hway
    rw [← htop rfl]
    exact hshows
  | cons q p₁ =>
    obtain ⟨top₁, h₁⟩ := (reaches_true.2 hway).shows_append hshows
    -- the first step is found in both drafts
    cases hreach with
    | cons hc _ =>
      have hc' := hin x hx _ _ _ (Shows.here hc)
      have hc₁ := ht.changes.keeps.shows hd.sound (Shows.here hc)
      rw [hp.top_unique hc₁, ← h₁.top_unique hc']
      exact h₁

theorem Makes.shownIn {gs : List Graft} (h₀ : d₀.Sound) (hd' : d₀.Follows d')
    (h : Makes d₀ gs d d₁) (hin : ShownIn d₀ d d')
    (hgs : ∀ g ∈ gs, g.Declared d₀ ∧ g.MadeIn d₀ d') : ShownIn d₀ d₁ d' := by
  induction h with
  | nil => exact hin
  | quiet hd hq _ ih =>
    refine ih (fun x hx p top k hp => hin x hx p top k ?_) hgs
    exact hq.of_shows hd.sound (hd.keeps.hasSite hx) hp
  | graft hd hg _ ih =>
    obtain ⟨hdecl, hmade⟩ := hgs _ List.mem_cons_self
    refine ih (Graft.shownIn h₀ hd hd' hin hdecl hg hmade) fun g hg => ?_
    exact hgs g (List.mem_cons_of_mem _ hg)

/-! ## The tasks of a run -/

theorem Draft.hasSite_of_moduleOf? {m : ModuleIdentity} {i : ModuleId}
    (h : d.moduleOf? m = some i) : d.HasSite (.module i) := by
  unfold moduleOf? at h
  obtain ⟨n, hn, rfl⟩ := Option.map_eq_some_iff.1 h
  obtain ⟨hlt, -⟩ := Array.findIdx?_eq_some_iff_getElem.1 hn
  exact hlt

theorem UsesTask.Stands.declared {t : UsesTask} (ht : t.Stands d₀) (h₀ : d₀.Sound)
    (hg : g ∈ t.grafts d₀) : g.Declared d₀ := by
  unfold UsesTask.grafts at hg
  split at hg
  · cases hg
  · rcases List.mem_cons.1 hg with rfl | hg
    · exact ⟨ht.site, fun a ha => (by cases ha)⟩
    · obtain ⟨a, ha, rfl⟩ := List.mem_map.1 hg
      refine ⟨ht.site, fun a' ha' => ?_⟩
      cases ha'
      exact h₀.augment_lt t.uses a ha

theorem AugmentTask.declared {t : AugmentTask} (ht : t.augment.index < d₀.augments.size)
    (hg : g ∈ t.grafts d₀) : g.Declared d₀ := by
  unfold AugmentTask.grafts at hg
  split at hg
  · cases hg
  · next m hm =>
    obtain ⟨q, -, hq⟩ := Option.bind_eq_some_iff.1 hm
    obtain rfl := List.mem_singleton.1 hg
    refine ⟨hasSite_of_moduleOf? hq, fun a ha => ?_⟩
    cases ha
    exact ht

/-- A step copies the bodies of its grafts. -/
theorem Step.copies {S S' : Stage} {m : Move} (hS : S.From d₀) (h : Step S m S')
    (hg : g ∈ m.grafts d₀) : S.Copies m g.body := by
  rcases h.cases hS.toReady with
    ⟨pre, t, post, i, rfl, huses, -, -, hwait, hi⟩ | ⟨pre, t, post, n, rfl, haug, -, -, -, hwait, -, -⟩
  · have ht : t ∈ S.uses := by rw [huses]; simp
    replace hg : g ∈ t.grafts d₀ := hg
    unfold UsesTask.grafts at hg
    rw [← hS.follows.resolve, hi.resolve] at hg
    rcases List.mem_cons.1 hg with rfl | hg
    · exact .grouping huses hwait hi.resolve
    · obtain ⟨a, ha, rfl⟩ := List.mem_map.1 hg
      rw [← hS.follows.augmentations t.uses (hS.stands t ht).uses] at ha
      exact .inner huses hwait ha
  · have ht : t ∈ S.augments := by rw [haug]; simp
    replace hg : g ∈ t.grafts d₀ := hg
    unfold AugmentTask.grafts at hg
    split at hg
    · cases hg
    · obtain rfl := List.mem_singleton.1 hg
      exact .top ht hwait

/-- The grafts of a run were made on the way, each from a body that showed all that it shows in the
end. -/
theorem Run.exists_made {S S' : Stage} {ms : List Move} (hS : S.From d₀) (h : Run S ms S') {m : Move}
    (hm : m ∈ ms) (hg : g ∈ m.grafts d₀) : ∃ a b, d₀.Follows a ∧ g.Made a b ∧ b.Keeps S'.draft ∧
      S'.draft.childrenOf g.body.site = a.childrenOf g.body.site ∧
      ∀ first p top k, S'.draft.Shows first g.body.site p top k →
        a.Shows first g.body.site p top k := by
  induction h with
  | nil => cases hm
  | @cons S S₁ S' m' ms hs hr ih =>
    rcases List.mem_cons.1 hm with rfl | hm
    · obtain ⟨a, b, ha, hfollows, hmade, hb⟩ := (hs.makes hS).exists_made hg
      have hsettled := (hs.copies hS hg).settled hS.toLexical
      obtain ⟨hsame, -⟩ := hsettled.run hS.toReady (.cons hs hr)
      have hrest := hr.keeps ((hs.from hS).toReady)
      refine ⟨a, b, hfollows, hmade, hb.trans hrest, ?_, fun first p top k hp => ?_⟩
      · -- the children in between are a part of those before and after
        obtain ⟨s, -, ht⟩ := hmade
        have had := ht.changes.keeps.trans (hb.trans hrest)
        by_cases hsite : S.draft.HasSite g.body.site
        · have h₁ := ha.children _ hsite
          have h₂ := had.children _ (ha.hasSite hsite)
          rw [hsame.children] at h₂ ⊢
          exact h₁.eq_of_length_le h₂.length_le
        · rw [hsame.children, childrenOf_of_not_hasSite hsite, childrenOf_of_not_hasSite]
          intro hno
          cases hbg : g.body with
          | grouping i =>
            rw [hbg] at hsite hno
            refine hsite ?_
            show _ < _
            rw [hS.follows.groupings_size, ← hfollows.groupings_size]
            exact hno
          | augment i =>
            rw [hbg] at hsite
            exact hsite (hsettled.augment_lt i hbg)
      · exact ha.shows hS.sound (hsame.of_shows hS.sound (.refl _) hp)
    · exact ih (hs.from hS) hm

/-- The grafts of a run were made in the draft that it comes to. -/
theorem Run.madeIn {S S' : Stage} {ms : List Move} (hS : S.From d₀) (h : Run S ms S') {m : Move}
    (hm : m ∈ ms) (hg : g ∈ m.grafts d₀) : g.MadeIn d₀ S'.draft := by
  obtain ⟨a, b, hfollows, hmade, hb, hchildren, hshows⟩ := h.exists_made hS hm hg
  exact ⟨a, b, hfollows, hmade, hb, hchildren, hshows true⟩

/-- What was to do is done or left. -/
theorem Run.perm {S S' : Stage} {ms : List Move} (h : Run S ms S') :
    (S.uses.map Move.expand ++ S.augments.map Move.merge).Perm
      (ms ++ (S'.uses.map Move.expand ++ S'.augments.map Move.merge)) := by
  induction h with
  | nil => exact .refl _
  | cons hs _ ih =>
    refine List.Perm.trans ?_ (ih.cons _)
    cases hs with
    | expand =>
      simp only [List.map_append, List.map_cons, List.append_assoc, List.cons_append]
      exact List.perm_middle
    | merge =>
      simp only [List.map_append, List.map_cons, ← List.append_assoc]
      exact List.perm_middle

/-! ## Stages where nothing more can be done -/

/-- The target of an augmentation that is left is missing. -/
theorem Stage.Stuck.findDataNode_eq_none {S : Stage} (h : S.Stuck) (huses : S.uses = [])
    {t : AugmentTask} (ht : t ∈ S.augments) : S.draft.findDataNode t.target = none := by
  obtain ⟨pre, post, hpre⟩ := List.append_of_mem ht
  induction hn : pre.length using Nat.strong_induction_on generalizing t pre post with
  | _ n ih =>
    rcases h.augments pre t post hpre with ⟨u, hu, htarget⟩ | hwait | hnone
    · -- an earlier one of the same target
      obtain ⟨pre', post', rfl⟩ := List.append_of_mem hu
      rw [← htarget]
      have hu' : S.augments = pre' ++ u :: (post' ++ t :: post) := by rw [hpre]; simp
      refine ih pre'.length ?_ (by rw [hu']; simp) pre' _ hu' rfl
      rw [← hn]
      simp
    · rw [huses] at hwait
      cases hwait
    · exact hnone

theorem Draft.ShownIn.findDataNode (hd : d₀.Follows d) (hd' : d₀.Follows d')
    (hin : ShownIn d₀ d d') {T : SchemaPath} {n : NodeId} (h : d.findDataNode T = some n) :
    ∃ n', d'.findDataNode T = some n' := by
  obtain ⟨q, m, hq, hm, hdesc⟩ := findDataNode_eq_some.1 h
  rw [hd.moduleOf?] at hm
  obtain ⟨hne, hdesc⟩ := findDescendant_eq_some.1 hdesc
  obtain ⟨top, hshows⟩ := (reaches_true.2 hdesc).shows hne
  obtain ⟨n', hn', -⟩ := (hin _ (hasSite_of_moduleOf? hm) _ _ _ hshows).exists_reaches
  refine ⟨n', findDataNode_eq_some.2 ⟨q, m, hq, ?_, findDescendant_eq_some.2 ⟨hne, ?_⟩⟩⟩
  · rw [hd'.moduleOf?]
    exact hm
  · exact reaches_true.1 hn'

section Complete

variable {S₀ S S' R : Stage} {ms : List Move} (h₀ : S₀.From d₀) (hR : Run S₀ ms R)
  (hstuck : R.Stuck) (huses : R.uses = [])
include h₀ hR hstuck huses

/-- A step of another run brings nothing new. -/
theorem Step.shownIn {m : Move} (hS : S.From d₀) (hsubset : S.uses ⊆ S₀.uses)
    (hsubset' : S.augments ⊆ S₀.augments) (h : Step S m S') (hin : ShownIn d₀ S.draft R.draft) :
    ShownIn d₀ S'.draft R.draft := by
  have hRfrom := hR.from h₀
  refine (h.makes hS).shownIn h₀.start hRfrom.follows hin fun g hg => ?_
  have hperm := hR.perm
  rw [huses, List.map_nil, List.nil_append] at hperm
  rcases h.cases hS.toReady with
    ⟨pre, t, post, i, rfl, hpre, -⟩ | ⟨pre, t, post, n, rfl, hpre, -, -, -, -, hn, -⟩
  · have ht : t ∈ S.uses := by rw [hpre]; simp
    refine ⟨(hS.stands t ht).declared hS.start hg, hR.madeIn h₀ ?_ hg⟩
    have hmem := hperm.subset (List.mem_append_left _ (List.mem_map_of_mem (hsubset ht)))
    rcases List.mem_append.1 hmem with hmem | hmem
    · exact hmem
    · obtain ⟨_, -, h⟩ := List.mem_map.1 hmem
      cases h
  · have ht : t ∈ S.augments := by rw [hpre]; simp
    refine ⟨AugmentTask.declared (hS.declared t ht) hg, hR.madeIn h₀ ?_ hg⟩
    have hmem := hperm.subset (List.mem_append_right _ (List.mem_map_of_mem (hsubset' ht)))
    rcases List.mem_append.1 hmem with hmem | hmem
    · exact hmem
    · -- it would not be left, as its target is there
      obtain ⟨u, hu, h⟩ := List.mem_map.1 hmem
      cases h
      obtain ⟨n', hn'⟩ := hin.findDataNode hS.follows hRfrom.follows hn
      rw [hstuck.findDataNode_eq_none huses hu] at hn'
      cases hn'

theorem Run.shownIn {ms' : List Move} (hS : S.From d₀) (hsubset : S.uses ⊆ S₀.uses)
    (hsubset' : S.augments ⊆ S₀.augments) (h : Run S ms' S') (hin : ShownIn d₀ S.draft R.draft) :
    ShownIn d₀ S'.draft R.draft := by
  induction h with
  | nil => exact hin
  | cons hs _ ih =>
    refine ih (hs.from hS) (List.Subset.trans hs.uses_subset hsubset)
      (List.Subset.trans hs.augments_subset hsubset') ?_
    exact hs.shownIn h₀ hR hstuck huses hS hsubset hsubset' hin

/-- What is missing in the end is missing after every run. -/
theorem Run.findDataNode_eq_none {ms' : List Move} (h : Run S₀ ms' S)
    {T : SchemaPath} (hT : R.draft.findDataNode T = none) : S.draft.findDataNode T = none := by
  have hin : ShownIn d₀ S₀.draft R.draft := by
    intro x _ p top k hp
    exact (hR.keeps h₀.toReady).shows h₀.sound hp
  have hin' := Run.shownIn h₀ hR hstuck huses h₀ (List.Subset.refl _) (List.Subset.refl _) h hin
  cases hn : S.draft.findDataNode T with
  | none => rfl
  | some n =>
    obtain ⟨n', hn'⟩ := hin'.findDataNode (h.from h₀).follows (hR.from h₀).follows hn
    rw [hT] at hn'
    cases hn'

end Complete

end YangSchema
