import YangSchema.Proofs.Declaration.Body
import YangSchema.Proofs.Draft.Regular
import YangSchema.Proofs.Inference.Bodies

/-!
# The grafts of a task

To carry out a task is to make some grafts, and which ones can be read off the declared draft
(`Move.grafts`): a body, and the place where it goes, told by a declared site and the names on the way
from there.  Whatever was carried out before, a step makes just the grafts of its task
(`Step.makes`), and every body holds names of its own module only (`Draft.Follows`).
-/

namespace YangSchema

open Draft Edit

/-- A body, and where its copies go: to the end of `way` from the site `anchor`. -/
structure Graft where
  style : CopyStyle
  anchor : Site
  way : List QName
  body : Owner

namespace Draft

variable {d₀ d d₁ d₂ : Draft} {s x : Site} {b : Owner}

/-! ## Drafts that a run comes to -/

/-- The draft `d` grew out of the declared draft `d₀` by grafts. -/
structure Follows (d₀ d : Draft) : Prop where
  sound : d.Sound
  keeps : d₀.Keeps d
  modules_size : d.modules.size = d₀.modules.size
  groupings_size : d.groupings.size = d₀.groupings.size
  augmentations : ∀ u, u.index < d₀.uses.size →
    (d.usesOf u).augmentations = (d₀.usesOf u).augmentations
  resolve : ∀ t : UsesTask, t.resolve d = t.resolve d₀
  tops : ∀ m, (d.module m).augmentations = (d₀.module m).augmentations
  regular : d₀.Regular d
  /-- A body holds names of its own module only. -/
  named : ∀ b : Owner, d₀.HasSite b.site → ∀ p top k, d.Shows false b.site p top k →
    ∀ q ∈ p, q.owner = d₀.homeOf b

/-- The names on a way are names of nodes below its start. -/
theorem exists_under_of_reaches (hd : d.Sound) {first : Bool} {p : List QName}
    (h : d.Reaches first s p x) {q : QName} (hq : q ∈ p) :
    ∃ i, d.Under (.node i) s ∧ (d.node i).name = q := by
  induction h with
  | nil => cases hq
  | cons hc _ ih =>
    have hunder := hd.under_of_mem (.refl _) hc.mem
    rcases List.mem_cons.1 hq with rfl | hq
    · exact ⟨_, hunder, hc.name_eq⟩
    · obtain ⟨i, hi, hname⟩ := ih hq
      exact ⟨i, hi.trans hunder, hname⟩

theorem exists_shows_of_under (hd : d.Sound) {i : NodeId} (h : d.Under (.node i) x)
    (hne : ∀ i, x ≠ .node i) : ∃ p top, d.Shows false x p top (d.node i).kind.keyword ∧
      (d.node i).name ∈ p := by
  obtain ⟨p, hp⟩ := Leads.exists_of_under hd h
  rcases List.eq_nil_or_concat p with rfl | ⟨p, q, rfl⟩
  · cases hp
    exact absurd rfl (hne i)
  rw [List.concat_eq_append] at hp
  obtain ⟨top, hshows⟩ := (reaches_false.2 hp).shows (by simp)
  refine ⟨_, top, hshows, ?_⟩
  obtain ⟨y, -, c, -, rfl, hc⟩ := hp.of_snoc
  cases hc
  simp

namespace Follows

theorem refl (hd : d₀.Sound) (hregular : d₀.Regular d₀)
    (hnamed : ∀ (i : NodeId) (b : Owner), d₀.Under (.node i) b.site → (d₀.node i).name.owner = d₀.homeOf b) : d₀.Follows d₀ where
  sound := hd
  keeps := .refl d₀
  modules_size := rfl
  groupings_size := rfl
  augmentations _ _ := rfl
  resolve _ := rfl
  tops _ := rfl
  regular := hregular
  named b _ p top k hp q hq := by
    obtain ⟨j, hj, -⟩ := hp.exists_reaches
    obtain ⟨i, hi, rfl⟩ := exists_under_of_reaches hd hj hq
    exact hnamed i b hi

theorem owner (h : d₀.Follows d) (hb : d₀.HasSite b.site) {i : NodeId}
    (hi : d.Under (.node i) b.site) : (d.node i).name.owner = d₀.homeOf b := by
  obtain ⟨p, top, hp, hmem⟩ := exists_shows_of_under h.sound hi b.site_ne_node
  exact h.named b hb p top _ hp _ hmem

theorem hasSite_grouping {g : GroupingId} (h : d₀.Follows d) (hg : d.HasSite (.grouping g)) :
    d₀.HasSite (.grouping g) := by
  show _ < _
  rw [← h.groupings_size]
  exact hg

/-- Without the body there is nothing in it. -/
theorem owners (h : d₀.Follows d) (hb : d.HasSite b.site → d₀.HasSite b.site) {i j : NodeId}
    (hi : d.Under (.node i) b.site) (hj : d.Under (.node j) b.site) :
    (d.node i).name.owner = (d.node j).name.owner := by
  have hs : d.HasSite b.site := h.sound.hasSite_above hi (lt_of_under hi b.site_ne_node)
  exact (h.owner (hb hs) hi).trans (h.owner (hb hs) hj).symm

theorem moduleOf? (h : d₀.Follows d) (m : ModuleIdentity) : d.moduleOf? m = d₀.moduleOf? m :=
  moduleOf?_eq h.modules_size h.keeps.identity m

/-- Changes are followed as long as bodies hold names of their own only. -/
theorem changes (h : d₀.Follows d) (hch : Changes s d d₁) (hregular : d₀.Regular d₁)
    (hnamed : ∀ b : Owner, d₀.HasSite b.site → ∀ p top k, d₁.Shows false b.site p top k →
      ∀ q ∈ p, q.owner = d₀.homeOf b) : d₀.Follows d₁ where
  sound := hch.sound
  keeps := h.keeps.trans hch.keeps
  modules_size := hch.modules_size.trans h.modules_size
  groupings_size := hch.groupings_size.trans h.groupings_size
  augmentations u hu := by
    rw [hch.augmentations u (Nat.lt_of_lt_of_le hu h.keeps.uses_le), h.augmentations u hu]
  resolve t := (hch.resolve t).trans (h.resolve t)
  tops m := (hch.tops m).trans (h.tops m)
  regular := hregular
  named := hnamed

theorem quiet (h : d₀.Follows d) (hq : Quiet s d d₁) : d₀.Follows d₁ :=
  h.changes hq.toChanges (h.regular.quiet h.sound h.keeps hq) fun b hb p top k hp q hq' =>
    h.named b hb p top k (hq.of_shows h.sound (h.keeps.hasSite hb) hp) q hq'

/-- A graft is followed if it brings the bodies that it goes into names of their own. -/
theorem takes (h : d₀.Follows d) {style : CopyStyle} (hb : d.HasSite b.site → d₀.HasSite b.site)
    (ht : Takes style s b.site d d₁) (hs : ∀ b' : Owner, d.Under s b'.site →
      ∀ q : QName, q.owner = d₀.homeOf b → (style.name q).owner = d₀.homeOf b') :
    d₀.Follows d₁ := by
  refine h.changes ht.changes (h.regular.takes h.sound ht hb h.keeps) fun b' hb' p top k hp q hq => ?_
  rcases ht.of_shows h.sound (h.keeps.hasSite hb') hp with
    hp | ⟨p₁, p₂, top', rfl, hreach, -, htrans⟩
  · exact h.named b' hb' p top k hp q hq
  rcases List.mem_append.1 hq with hq | hq
  · obtain ⟨i, hi, rfl⟩ := exists_under_of_reaches h.sound hreach hq
    exact h.owner hb' hi
  · obtain ⟨p₀, top₀, k₀, hp₀, q₀, hq₀, rfl⟩ := htrans.exists_name hq
    have hb : d₀.HasSite b.site := by
      refine hb (Classical.not_not.1 fun hno => ?_)
      exact not_shows_of_not_hasSite hno hp₀
    exact hs b' (hreach.leads.under h.sound) q₀ (h.named b hb p₀ top₀ k₀ hp₀ q₀ hq₀)

end Follows

end Draft

/-! ## Making grafts -/

variable {d₀ d d₁ d₂ : Draft} {s : Site} {b : Owner}

/-- The graft is made. -/
def Graft.Made (g : Graft) (d d₁ : Draft) : Prop :=
  ∃ s, d.descend g.anchor g.way = some s ∧ Takes g.style s g.body.site d d₁

/-- The grafts are made in turn, with nothing but quiet changes in between. -/
inductive Makes (d₀ : Draft) : List Graft → Draft → Draft → Prop
  | nil {d : Draft} (hd : d₀.Follows d) : Makes d₀ [] d d
  | quiet {s : Site} {gs : List Graft} {d d₁ d₂ : Draft} (hd : d₀.Follows d) (hq : Quiet s d d₁)
    (h : Makes d₀ gs d₁ d₂) : Makes d₀ gs d d₂
  | graft {g : Graft} {gs : List Graft} {d d₁ d₂ : Draft} (hd : d₀.Follows d) (hg : g.Made d d₁)
    (h : Makes d₀ gs d₁ d₂) : Makes d₀ (g :: gs) d d₂

namespace Makes

variable {gs gs' : List Graft}

theorem follows (h : Makes d₀ gs d d₁) : d₀.Follows d₁ := by
  induction h with
  | nil hd => exact hd
  | quiet _ _ _ ih => exact ih
  | graft _ _ _ ih => exact ih

theorem keeps (h : Makes d₀ gs d d₁) : d.Keeps d₁ := by
  induction h with
  | nil => exact .refl _
  | quiet _ hq _ ih => exact hq.keeps.trans ih
  | graft _ hg _ ih =>
    obtain ⟨s, -, ht⟩ := hg
    exact ht.changes.keeps.trans ih

theorem append (h : Makes d₀ gs d d₁) (h' : Makes d₀ gs' d₁ d₂) : Makes d₀ (gs ++ gs') d d₂ := by
  induction h with
  | nil => exact h'
  | quiet hd hq _ ih => exact .quiet hd hq (ih h')
  | graft hd hg _ ih => exact .graft hd hg (ih h')

/-- Each of the grafts is made somewhere on the way. -/
theorem exists_made (h : Makes d₀ gs d d₁) {g : Graft} (hg : g ∈ gs) :
    ∃ a b, d.Keeps a ∧ d₀.Follows a ∧ g.Made a b ∧ b.Keeps d₁ := by
  induction h with
  | nil => cases hg
  | quiet _ hq _ ih =>
    obtain ⟨a, b, ha, hrest⟩ := ih hg
    exact ⟨a, b, hq.keeps.trans ha, hrest⟩
  | graft hd hmade hrest ih =>
    rcases List.mem_cons.1 hg with rfl | hg
    · exact ⟨_, _, .refl _, hd, hmade, hrest.keeps⟩
    · obtain ⟨s, -, ht⟩ := hmade
      obtain ⟨a, b, ha, hab⟩ := ih hg
      exact ⟨a, b, ht.changes.keeps.trans ha, hab⟩

end Makes

/-! ## The grafts of tasks -/

/-- The grafts that bring the augmentations in a uses to their targets. -/
def UsesTask.innerGrafts (t : UsesTask) (d : Draft) (augmentations : List AugmentId) : List Graft :=
  augmentations.map fun a => ⟨{ augmenting := true }, t.site, (d.augment a).facts.target.steps, .augment a⟩

def UsesTask.grafts (t : UsesTask) (d : Draft) : List Graft :=
  match t.resolve d with
  | none => []
  | some g => ⟨t.style, t.site, [], .grouping g⟩ :: t.innerGrafts d (d.usesOf t.uses).augmentations

def AugmentTask.grafts (t : AugmentTask) (d : Draft) : List Graft :=
  match t.target.first?.bind fun q => d.moduleOf? q.owner with
  | none => []
  | some m => [⟨{ augmenting := true }, .module m, t.target.steps, .augment t.augment⟩]

/-- The grafts that the move makes, as declared. -/
def Move.grafts : Move → Draft → List Graft
  | .expand t, d => t.grafts d
  | .merge t, d => t.grafts d

/-- A body is merged. -/
theorem Draft.Merged.makes {a : AugmentId} {n : NodeId} {anchor : Site} {way : List QName}
    (hd : d₀.Follows d) (ha : a.index < d₀.augments.size)
    (hway : d.descend anchor way = some (.node n)) (hout : ¬ d.Under (.node n) (.augment a))
    (hhome : ∀ b' : Owner, d.Under (.node n) b'.site → (d₀.augment a).facts.home = d₀.homeOf b')
    (h : Merged a n d d₁) : Makes d₀ [⟨{ augmenting := true }, anchor, way, .augment a⟩] d d₁ := by
  obtain ⟨d₂, hg, hq⟩ := h.exists_grafted
  have hb : d₀.HasSite (Owner.augment a).site := ha
  have ht : Takes { augmenting := true } (.node n) (Owner.augment a).site d d₂ :=
    { toGrafted := hg
      root := Owner.site_ne_node (.augment a)
      outside := hout
      owners := fun i j hi hj => (hd.owner hb hi).trans (hd.owner hb hj).symm
      fresh := h.fresh }
  have hd₂ : d₀.Follows d₂ := hd.takes (fun _ => hb) ht fun b' hb' q hq => by
    rw [← hhome b' hb']
    exact hq
  exact .graft hd ⟨_, hway, ht⟩ (.quiet hd₂ hq (.nil (hd₂.quiet hq)))

namespace UsesTask

variable {t : UsesTask} {g : GroupingId}

/-- The bodies around the place of a task, in any later draft. -/
theorem Stands.owner_of_follows (ht : t.Stands d₀) (h₀ : d₀.Sound) (hd : d₀.Follows d)
    (hb : d.Under t.site b.site) : t.enclosing.getLast? = some b ∧ d₀.homeOf b = t.home :=
  ht.owner b ((hd.keeps.under_iff h₀ ht.site).1 hb)

/-- A body around something at the place of a task is around the place. -/
theorem under_of_under_site {n : NodeId} (hn : d.Under (.node n) t.site)
    (hb : d.Under (.node n) b.site) : d.Under t.site b.site := by
  rcases hn.total hb with h | h
  · exact h
  · rw [h.eq_of_root b.site_ne_node]
    exact .refl _

/-- The augmentations in a uses are merged. -/
theorem Stands.makes_mergedAll (ht : t.Stands d₀) (h₀ : d₀.Sound) {l : List AugmentId}
    (hl : l ⊆ (d₀.usesOf t.uses).augmentations) (hd : d₀.Follows d)
    (h : MergedAll t.site l d d₁) : Makes d₀ (t.innerGrafts d₀ l) d d₁ := by
  generalize hs : t.site = s at h
  induction h with
  | nil => exact .nil hd
  | @cons a l n d d₂ d₃ hn hm _ ih =>
    subst hs
    have ha := hl List.mem_cons_self
    have hlt : a.index < d₀.augments.size := h₀.augment_lt t.uses a ha
    obtain ⟨hinner, hhome⟩ := ht.inner a ha
    have hunder := findDescendant_under hd.sound hn
    rw [hd.keeps.target a hlt] at hn
    have hway := (findDescendant_eq_some.1 hn).2
    have hmakes : Makes d₀ _ d d₂ := hm.makes hd hlt hway ?_ ?_
    · exact hmakes.append (ih (fun x hx => hl (List.mem_cons_of_mem _ hx)) hmakes.follows)
    · intro hb
      have := (ht.owner_of_follows h₀ hd (b := .augment a) (under_of_under_site hunder hb)).1
      exact hinner (List.mem_of_getLast? this)
    · intro b' hb'
      rw [hhome]
      exact (ht.owner_of_follows h₀ hd (under_of_under_site hunder hb')).2.symm

/-- The site takes over the body of the grouping. -/
theorem Stands.takes (ht : t.Stands d₀) (h₀ : d₀.Sound) (hacyclic : t.innermostGrouping ≠ some g)
    (hd : d₀.Follows d) (hfresh : ∀ c ∈ (d.grouping g).children,
      d.findChild t.site ((d.node c).name.bindTo t.home) = none)
    (hq : Quiet t.site d d₁) (hg : Grafted t.style t.site (d.grouping g).children d₁ d₂) :
    Takes t.style t.site (Owner.grouping g).site d₁ d₂ := by
  have hd₁ := hd.quiet hq
  -- the body is as it was before the quiet change
  have hbody : d₁.childrenOf (.grouping g) = (d.grouping g).children := by
    by_cases hs : d.HasSite (.grouping g)
    · exact hq.children_eq _ hs
    · have hs₁ : ¬ d₁.HasSite (.grouping g) := by
        show ¬ _ < _
        rw [hq.groupings_size]
        exact hs
      rw [childrenOf_of_not_hasSite hs₁]
      exact (childrenOf_of_not_hasSite hs).symm
  refine {
    toGrafted := (hbody ▸ hg :)
    root := Owner.site_ne_node (.grouping g)
    outside := fun hunder => ?_
    owners := fun _ _ => hd₁.owners (b := .grouping g) hd₁.hasSite_grouping
    fresh := fun c hc => ?_ }
  · exact hacyclic (innermostGrouping_of_getLast (ht.owner_of_follows h₀ hd₁ hunder).1)
  · replace hc : c ∈ d₁.childrenOf (.grouping g) := hc
    rw [hbody] at hc
    rw [hq.findChild hd.sound (hd.keeps.hasSite ht.site),
      hq.keeps.name c (hd.sound.child_lt (s := .grouping g) hc)]
    exact hfresh c hc

/-- A uses is expanded. -/
theorem Stands.makes_expanded (ht : t.Stands d₀) (h₀ : d₀.Sound)
    (hacyclic : ∀ g, t.resolve d₀ = some g → t.innermostGrouping ≠ some g) (hd : d₀.Follows d)
    (h : t.Expanded g d d₁) : Makes d₀ (t.grafts d₀) d d₁ := by
  obtain ⟨d₂, d₃, d₄, hq, hg, hq', hm⟩ := h.exists_grafted hd.sound
  have hres : t.resolve d₀ = some g := (hd.resolve t).symm.trans h.resolve
  have hd₂ := hd.quiet hq
  have htakes := ht.takes h₀ (hacyclic g hres) hd h.fresh hq hg
  have hd₃ : d₀.Follows d₃ := hd₂.takes (b := .grouping g) hd₂.hasSite_grouping htakes fun b' hb' q _ =>
    (ht.owner_of_follows h₀ hd₂ hb').2.symm
  have hd₄ := hd₃.quiet hq'
  rw [hd.augmentations t.uses ht.uses] at hm
  unfold grafts
  rw [hres]
  exact .quiet hd hq (.graft hd₂ ⟨t.site, rfl, htakes⟩
    (.quiet hd₃ hq' (ht.makes_mergedAll h₀ (List.Subset.refl _) hd₄ hm)))

end UsesTask

/-! ## The grafts of steps -/

/-- A stage on the way from the declared draft `d₀`. -/
structure Stage.From (d₀ : Draft) (S : Stage) : Prop extends Stage.Lexical S where
  start : d₀.Sound
  follows : d₀.Follows S.draft
  stands : ∀ t ∈ S.uses, t.Stands d₀
  declared : ∀ t ∈ S.augments, t.augment.index < d₀.augments.size

/-- A step makes the grafts of its task. -/
theorem Step.makes {S S' : Stage} {m : Move} (hS : S.From d₀) (h : Step S m S') :
    Makes d₀ (m.grafts d₀) S.draft S'.draft := by
  rcases h.cases hS.toReady with
    ⟨pre, t, post, g, rfl, huses, -, -, -, hg⟩ | ⟨pre, t, post, n, rfl, haug, -, -, -, -, hn, hm⟩
  · have ht : t ∈ S.uses := by rw [huses]; simp
    refine (hS.stands t ht).makes_expanded hS.start (fun g hg => ?_) hS.follows hg
    rw [← hS.follows.resolve] at hg
    exact hS.acyclic t ht g hg
  · have ht : t ∈ S.augments := by rw [haug]; simp
    obtain ⟨q, i, hq, hi, hdesc⟩ := findDataNode_eq_some.1 hn
    rw [hS.follows.moduleOf?] at hi
    have hunder : S.draft.Under (.node n) (.module i) := findDescendant_under hS.sound hdesc
    -- what is below a module is in no body
    have hout : ∀ b : Owner, ¬ S.draft.Under (.node n) b.site := fun b hb =>
      b.site_ne_module _ (hb.root_unique hunder b.site_ne_node fun j hj => (by cases hj))
    show Makes d₀ (t.grafts d₀) _ _
    unfold AugmentTask.grafts
    rw [hq, Option.bind_some, hi]
    exact hm.makes hS.follows (hS.declared t ht) (findDescendant_eq_some.1 hdesc).2
      (hout (.augment t.augment)) fun b hb => absurd hb (hout b)

theorem Step.from {S S' : Stage} {m : Move} (hS : S.From d₀) (h : Step S m S') : S'.From d₀ where
  toLexical := h.lexical hS.toLexical
  start := hS.start
  follows := (h.makes hS).follows
  stands t ht := hS.stands t (h.uses_subset ht)
  declared t ht := hS.declared t (h.augments_subset ht)

theorem Run.from {S S' : Stage} {ms : List Move} (hS : S.From d₀) (h : Run S ms S') : S'.From d₀ := by
  induction h with
  | nil => exact hS
  | cons hs _ ih => exact ih (hs.from hS)

end YangSchema
