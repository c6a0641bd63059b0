import YangSchema.Proofs.Declaration.Pristine
import YangSchema.Proofs.Draft.Freezable
import YangSchema.Proofs.Inference.Strokes

/-!
# Layers of references

The declared modules, groupings and augmentations are the bodies that everything stands in (`Within`),
and the declarations tell which bodies a body leans on (`Stage.Leans`): it has a uses of the grouping,
a uses with the augmentation inside, or a node in which the grouping is defined.  Whatever strokes have
done, a reference stays in its body and leads down there, or leads to a body that its own leans on
(`Layered`).  So references end if no body leans on itself (`Layered.acc_module`).
-/

namespace YangSchema

open Draft Edit Relation

/-! ## Bodies -/

/-- The item stands in `b`: ways down lead there from `b`, but not into a declared augmentation, which
is a body of its own. -/
inductive Draft.Within (d₀ d : Draft) (b : Site) : Item → Prop
  | root : Within d₀ d b (.site b)
  | down {x y : Item} (h : Within d₀ d b x) (hy : d.Contains y x)
    (hnew : ∀ a, y = .site (.augment a) → d₀.augments.size ≤ a.index) : Within d₀ d b y

/-- `h` is `g`, or it is defined in it, or in a grouping that is, and so on. -/
def Draft.Encloses (d : Draft) (g h : GroupingId) : Prop :=
  ReflTransGen (fun g h => h ∈ (d.grouping g).groupings) g h

/-- The item is neither a module nor a grouping. -/
def Draft.Item.Inner : Item → Prop
  | .site (.module _) => False
  | .site (.grouping _) => False
  | _ => True

/-- From what stands in the body references end, if it is neither a module nor a grouping. -/
def Draft.EndsIn (d₀ d : Draft) (b : Site) : Prop :=
  ∀ x, Within d₀ d b x → x.Inner → Acc d.Refers x

/-- What a body needs by the declarations, if it is to be frozen. -/
inductive Stage.Leans (S : Stage) : Owner → Owner → Prop
  /-- There is a uses of the grouping in it. -/
  | uses {b : Owner} {t : UsesTask} {g : GroupingId} (ht : t ∈ S.uses)
    (hb : Within S.draft S.draft b.site (.site t.site)) (hg : t.resolve S.draft = some g) :
    S.Leans b (.grouping g)
  /-- There is a uses in it with the augmentation inside. -/
  | inner {b : Owner} {u : UsesId} {a : AugmentId} (hb : Within S.draft S.draft b.site (.uses u))
    (ha : a ∈ (S.draft.usesOf u).augmentations) : S.Leans b (.augment a)
  /-- There is a node in it in which the grouping is defined. -/
  | lists {b : Owner} {i : NodeId} {g h : GroupingId}
    (hb : Within S.draft S.draft b.site (.site (.node i))) (hg : g ∈ (S.draft.node i).groupings)
    (hh : S.draft.Encloses g h) : S.Leans b (.grouping h)

/-- The site is a body or a module. -/
structure Stage.Root (S : Stage) (b : Site) : Prop where
  site : S.draft.HasSite b
  ne_node : ∀ i, b ≠ .node i

/-- A body that `b` leans on, by some others perhaps; modules are above all bodies. -/
structure Stage.Below (S : Stage) (b : Site) (c : Owner) : Prop where
  site : S.draft.HasSite c.site
  leans : ∀ o : Owner, o.site = b → TransGen S.Leans o c

variable {S : Stage} {style : CopyStyle} {d d₁ : Draft} {b s : Site} {c src : Owner} {x y : Item}

theorem Owner.site_inj {b c : Owner} (h : b.site = c.site) : b = c := by
  cases b <;> cases c <;> cases h <;> rfl

namespace Stage.Below

theorem root (h : S.Below b c) : S.Root c.site := ⟨h.site, c.site_ne_node⟩

theorem trans {c' : Owner} (h : S.Below b c) (h' : S.Below c.site c') : S.Below b c' :=
  ⟨h'.site, fun o ho => (h.leans o ho).trans (h'.leans c rfl)⟩

theorem of_leans (hc : S.draft.HasSite c.site) (h : ∀ o : Owner, o.site = b → S.Leans o c) :
    S.Below b c := ⟨hc, fun o ho => .single (h o ho)⟩

theorem module {m : ModuleId} (hc : S.draft.HasSite c.site) : S.Below (.module m) c :=
  ⟨hc, fun o ho => absurd ho (o.site_ne_module m)⟩

end Stage.Below

/-! ## Standing in a body -/

namespace Draft.Within

variable {d₀ : Draft}

theorem hasItem (h : Within d₀ d b x) (hd : d.Sound) (hb : d.HasSite b) : d.HasItem x := by
  cases h with
  | root => exact hb
  | down _ hy _ => exact hd.hasItem_of_contains hy

theorem mono (h : Within d₀ d b x) (hc : ∀ x y, d.Contains y x → d₁.Contains y x) :
    Within d₀ d₁ b x := by
  induction h with
  | root => exact .root
  | down _ hy hnew ih => exact ih.down (hc _ _ hy) hnew

theorem child (h : Within d₀ d b (.site s)) {i : NodeId} (hi : i ∈ d.childrenOf s) :
    Within d₀ d b (.site (.node i)) :=
  h.down (contains_site.2 (.inl ⟨i, hi, rfl⟩)) fun a ha => by cases ha

theorem listed (h : Within d₀ d b (.site s)) {u : UsesId} (hu : u ∈ d.usesAt s) :
    Within d₀ d b (.uses u) :=
  h.down (contains_site.2 (.inr ⟨u, hu, rfl⟩)) fun a ha => by cases ha

/-- With a node its parent stands in the body. -/
theorem parent (h : Within d₀ d b (.site (.node i))) (hd : d.Sound) (hb : ∀ j, b ≠ .node j)
    (hp : (d.node i).parent = some s) : Within d₀ d b (.site s) := by
  generalize hx : Item.site (.node i) = x at h
  cases h with
  | root => exact absurd (Item.site.inj hx).symm (hb i)
  | @down x _ h hy _ =>
    subst hx
    cases x with
    | uses u =>
      obtain ⟨a, -, heq⟩ := contains_uses.1 hy
      cases heq
    | site t =>
      rcases contains_site.1 hy with ⟨c, hc, heq⟩ | ⟨u, -, heq⟩
      · cases heq
        rw [(hd.parent_iff t _).1 hc] at hp
        cases hp
        exact h
      · cases heq

theorem above (h : Within d₀ d b (.site s)) (hd : d.Sound) (hb : ∀ j, b ≠ .node j) {t : Site}
    (hst : d.Under s t) : Within d₀ d b (.site t) := by
  induction hst with
  | refl => exact h
  | up hp _ ih => exact ih (h.parent hd hb hp)

/-- Nothing contains a module. -/
theorem eq_module {m : ModuleId} (h : Within d₀ d b (.site (.module m))) : b = .module m := by
  generalize hx : Item.site (.module m) = x at h
  cases h with
  | root => exact (Item.site.inj hx).symm
  | @down x _ _ hy _ =>
    subst hx
    cases x with
    | uses u =>
      obtain ⟨a, -, heq⟩ := contains_uses.1 hy
      cases heq
    | site t =>
      rcases contains_site.1 hy with ⟨c, -, heq⟩ | ⟨u, -, heq⟩
      · cases heq
      · cases heq

variable {P : Item → Prop} (h : Implanted style s P d d₁)
include h

/-- What was there stands where it stood. -/
theorem of_implanted (hx : Within d₀ d₁ b x) (hold : d.HasItem x) : Within d₀ d b x := by
  induction hx with
  | root => exact .root
  | down _ hy hnew ih =>
    rcases h.put _ _ hy with hy | ⟨hy, -⟩
    · exact (ih (Draft.hasItem_of_contains hy)).down hy hnew
    · exact absurd hold hy

/-- What is new stands where the site stands. -/
theorem site_of_implanted (hd : d.Sound) (hb : d.HasSite b) (hs : d.HasSite s)
    (hx : Within d₀ d₁ b x) (hnew : ¬ d.HasItem x) : Within d₀ d b (.site s) := by
  induction hx with
  | root => exact absurd hb hnew
  | down hx hy _ ih =>
    rcases h.put _ _ hy with hy | ⟨-, rfl | hx'⟩
    · exact absurd (hd.hasItem_of_contains hy) hnew
    · exact hx.of_implanted h hs
    · exact ih hx'

end Draft.Within

/-! ## Layers -/

/-- What strokes start from. -/
structure Stage.Start (S : Stage) : Prop where
  sound : S.draft.Sound
  pristine : S.draft.Pristine
  stands : ∀ t ∈ S.uses, t.Stands S.draft
  declared : ∀ t ∈ S.augments, t.augment.index < S.draft.augments.size
  tops : ∀ m, ∀ a ∈ (S.draft.module m).augmentations, a.index < S.draft.augments.size

/-- References lead down in their body, or to a body that theirs leans on. -/
structure Layered (S : Stage) (d : Draft) : Prop where
  sound : d.Sound
  hasItem : ∀ x, S.draft.HasItem x → d.HasItem x
  augments_le : S.draft.augments.size ≤ d.augments.size
  groupings_size : d.groupings.size = S.draft.groupings.size
  old : ∀ b x, S.Root b → Within S.draft d b x → S.draft.HasItem x → Within S.draft S.draft b x
  contained : ∀ b x y, S.Root b → Within S.draft d b x → d.Contains y x →
    Within S.draft d b y ∨ ∃ c, S.Below b c ∧ Within S.draft d c.site y
  origin : ∀ b i o, S.Root b → Within S.draft d b (.site (.node i)) → (d.node i).origin = some o →
    ∃ c, S.Below b c ∧ Within S.draft d c.site (.site (.node o))
  augmentOrigin : ∀ b a o, S.Root b → Within S.draft d b (.site (.augment a)) →
    (d.augment a).origin = some o → ∃ c, S.Below b c ∧ Within S.draft d c.site (.site (.augment o))
  merged : ∀ b i, S.Root b → Within S.draft d b (.site (.node i)) →
    ∀ a ∈ (d.node i).augmentations, ∃ c, S.Below b c ∧ Within S.draft d c.site (.site (.augment a))
  listed : ∀ b i, S.Root b → Within S.draft d b (.site (.node i)) →
    ∀ g ∈ (d.node i).groupings, ∀ h, S.draft.Encloses g h → S.Below b (.grouping h)
  grouping : ∀ g, (d.grouping g).groupings = (S.draft.grouping g).groupings
  module : ∀ m, (d.module m).groupings = (S.draft.module m).groupings ∧
    (d.module m).augmentations = (S.draft.module m).augmentations

namespace Stage.Start

variable (h : S.Start)
include h

/-- A grouping that is defined in one that is there is there. -/
theorem lt_of_encloses {g k : GroupingId} (hg : g.index < S.draft.groupings.size)
    (hk : S.draft.Encloses g k) : k.index < S.draft.groupings.size := by
  cases hk with
  | refl => exact hg
  | tail _ hk => exact (h.pristine.nested _ _ hk).2

theorem layered : Layered S S.draft where
  sound := h.sound
  hasItem _ hx := hx
  augments_le := Nat.le_refl _
  groupings_size := rfl
  old _ _ _ hx _ := hx
  contained b x y hb hx hy := by
    cases x with
    | site t =>
      rcases contains_site.1 hy with ⟨c, hc, rfl⟩ | ⟨u, hu, rfl⟩
      · exact .inl (hx.child hc)
      · exact .inl (hx.listed hu)
    | uses u =>
      obtain ⟨a, ha, rfl⟩ := contains_uses.1 hy
      refine .inr ⟨.augment a, .of_leans (h.sound.augment_lt u a ha) ?_, .root⟩
      rintro o rfl
      exact .inner hx ha
  origin b i o _ _ ho := by
    rw [(h.pristine.nodes i).origin] at ho
    cases ho
  augmentOrigin b a o _ _ ho := by
    rw [h.pristine.augments a] at ho
    cases ho
  merged b i _ _ a ha := by
    rw [(h.pristine.nodes i).augmentations] at ha
    cases ha
  listed b i _ hi g hg k hk := by
    refine .of_leans (h.lt_of_encloses (h.pristine.listed i g hg) hk) ?_
    rintro o rfl
    exact .lists hi hg hk
  grouping _ := rfl
  module _ := ⟨rfl, rfl⟩

end Stage.Start

namespace Layered

variable (h : Layered S d)
include h

theorem hasSite (hb : S.Root b) : d.HasSite b := h.hasItem (.site b) hb.site

/-- Ways down lead to a body that the first one leans on, if they leave it. -/
theorem inside (hb : S.Root b) (hx : Within S.draft d b x) (hy : d.Inside x y) :
    Within S.draft d b y ∨ ∃ c, S.Below b c ∧ Within S.draft d c.site y := by
  induction hy with
  | refl => exact .inl hx
  | tail _ hz ih =>
    rcases ih with hx | ⟨c, hc, hx⟩
    · exact h.contained b _ _ hb hx hz
    · rcases h.contained c.site _ _ hc.root hx hz with hx | ⟨c', hc', hx⟩
      · exact .inr ⟨c, hc, hx⟩
      · exact .inr ⟨c', hc.trans hc', hx⟩

/-- A task brings copies to a body from a body that this one leans on. -/
theorem below (hS : S.Start) (hb : S.Root b) (hs : Within S.draft d b (.site s))
    (hbrings : S.Brings d style s src)
    (hsrc : ∀ g, src = .grouping g → g.index < d.groupings.size) : S.Below b src := by
  cases hbrings with
  | @body t g ht hg =>
    have hsite := (hS.stands t ht).site
    refine .of_leans (Nat.lt_of_lt_of_eq (hsrc g rfl) h.groupings_size) ?_
    rintro o rfl
    exact .uses ht (h.old _ _ hb hs hsite) hg
  | @inner t a _ ht ha hunder =>
    have hstands := hS.stands t ht
    refine .of_leans (hS.sound.augment_lt t.uses _ ha) ?_
    rintro o rfl
    have hsite := h.old _ _ hb (hs.above h.sound hb.ne_node hunder) hstands.site
    exact .inner (hsite.listed hstands.listed) ha
  | @top t m _ ht hunder =>
    rw [(hs.above h.sound hb.ne_node hunder).eq_module]
    exact .module (hS.declared t ht)

/-- Edits that keep what stands where keep the layers. -/
theorem of_contains (hd₁ : d₁.Sound) (hitems : ∀ x, d₁.HasItem x ↔ d.HasItem x)
    (haugments : d₁.augments.size = d.augments.size)
    (hgroupings : d₁.groupings.size = d.groupings.size)
    (hcontains : d₁.Contains = d.Contains)
    (hnode : ∀ i, (d₁.node i).origin = (d.node i).origin ∧
      (d₁.node i).groupings = (d.node i).groupings)
    (haugment : ∀ a, d₁.augment a = d.augment a) (hgrouping : ∀ g, d₁.grouping g = d.grouping g)
    (hmodule : ∀ m, d₁.module m = d.module m)
    (hmerged : ∀ i, ∀ a ∈ (d₁.node i).augmentations, a ∈ (d.node i).augmentations ∨
      ∀ b, S.Root b → Within S.draft d b (.site (.node i)) → S.Below b (.augment a)) :
    Layered S d₁ := by
  have hwithin : ∀ b x, Within S.draft d₁ b x ↔ Within S.draft d b x := fun b x =>
    ⟨fun hx => hx.mono fun _ _ hy => hcontains ▸ hy, fun hx => hx.mono fun _ _ hy => hcontains ▸ hy⟩
  refine {
    sound := hd₁
    hasItem := fun x hx => (hitems x).2 (h.hasItem x hx)
    augments_le := haugments ▸ h.augments_le
    groupings_size := hgroupings.trans h.groupings_size
    old := fun b x hb hx hold => h.old b x hb ((hwithin b x).1 hx) hold
    contained := fun b x y hb hx hy => ?_
    origin := fun b i o hb hi ho => ?_
    augmentOrigin := fun b a o hb ha ho => ?_
    merged := fun b i hb hi a ha => ?_
    listed := fun b i hb hi g hg => h.listed b i hb ((hwithin b _).1 hi) g ((hnode i).2 ▸ hg)
    grouping := fun g => hgrouping g ▸ h.grouping g
    module := fun m => hmodule m ▸ h.module m }
  all_goals simp only [hwithin] at *
  · exact h.contained b x y hb hx (hcontains ▸ hy)
  · exact h.origin b i o hb hi ((hnode i).1 ▸ ho)
  · exact h.augmentOrigin b a o hb ha (haugment a ▸ ho)
  · rcases hmerged i a ha with ha | ha
    · exact h.merged b i hb hi a ha
    · exact ⟨.augment a, ha b hb hi, .root⟩

/-! ### Strokes -/

section Implanted

variable (hS : S.Start) (hbrings : S.Brings d style s src) (hs : d.HasSite s)
  (himplanted : Implanted style s (d.Inside (.site src.site)) d d₁)
include hS hbrings hs himplanted

/-- Where something new stands, what it is a copy of stands in a body below. -/
theorem below_of_new (hb : S.Root b) (hx : Within S.draft d₁ b x) (hnew : ¬ d.HasItem x)
    (hy : d.Inside (.site src.site) y) (hne : ∀ g, y ≠ .site (.grouping g)) :
    ∃ c, S.Below b c ∧ Within S.draft d c.site y := by
  have hsite := hx.site_of_implanted himplanted h.sound (h.hasSite hb) hs hnew
  have hsrc := h.below hS hb hsite hbrings fun g hg => by
    subst hg
    rcases ReflTransGen.cases_head hy with heq | ⟨z, hz, -⟩
    · exact absurd heq.symm (hne g)
    · exact hasItem_of_contains (x := .site (.grouping g)) hz
  rcases h.inside hsrc.root .root hy with hy | ⟨c, hc, hy⟩
  · exact ⟨src, hsrc, hy⟩
  · exact ⟨c, hsrc.trans hc, hy⟩

/-- A node that stands in a body is an old one, a shorthand case, or a copy of a node in a body below. -/
theorem node_cases (hb : S.Root b) {i : NodeId} (hi : Within S.draft d₁ b (.site (.node i))) :
    (Within S.draft d b (.site (.node i)) ∧ (d₁.node i).origin = (d.node i).origin ∧
      (d₁.node i).groupings = (d.node i).groupings ∧
      (d₁.node i).augmentations = (d.node i).augmentations) ∨ d₁.Wrapping i ∨
    ∃ o c, S.Below b c ∧ Within S.draft d c.site (.site (.node o)) ∧
      (d₁.node i).origin = some o ∧ (d₁.node i).groupings = (d.node o).groupings ∧
      (d₁.node i).augmentations = (d.node o).augmentations := by
  by_cases hold : i.index < d.nodes.size
  · refine .inl ⟨hi.of_implanted himplanted hold, ?_⟩
    rw [himplanted.node i hold]
    exact ⟨rfl, rfl, rfl⟩
  · have hlt : i.index < d₁.nodes.size :=
      hi.hasItem himplanted.sound (himplanted.hasItem (x := .site b) (h.hasSite hb))
    rcases himplanted.copied i (Nat.not_lt.1 hold) hlt with hwrap | ⟨o, ho, hcopy⟩
    · exact .inr (.inl hwrap)
    · obtain ⟨c, hc, hoc⟩ :=
        h.below_of_new hS hbrings hs himplanted hb hi hold ho fun g heq => by cases heq
      refine .inr (.inr ⟨o, c, hc, hoc, hcopy.origin, ?_⟩)
      rw [hcopy.node]
      exact ⟨rfl, rfl⟩

theorem implanted : Layered S d₁ := by
  have hnodes : ∀ {b i}, S.Root b → Within S.draft d₁ b (.site (.node i)) → _ :=
    fun hb hi => h.node_cases hS hbrings hs himplanted hb hi
  have hlift : ∀ {b x}, (∃ c, S.Below b c ∧ Within S.draft d c.site x) →
      ∃ c, S.Below b c ∧ Within S.draft d₁ c.site x := by
    rintro b x ⟨c, hc, hx⟩
    exact ⟨c, hc, hx.mono himplanted.contains⟩
  refine {
    sound := himplanted.sound
    hasItem := fun x hx => himplanted.hasItem (h.hasItem x hx)
    augments_le := Nat.le_trans h.augments_le himplanted.augments_le
    groupings_size := himplanted.groupings_size.trans h.groupings_size
    old := fun b x hb hx hold => h.old b x hb (hx.of_implanted himplanted (h.hasItem x hold)) hold
    contained := fun b x y hb hx hy => ?_
    origin := fun b i o hb hi ho => ?_
    augmentOrigin := fun b a o hb ha ho => ?_
    merged := fun b i hb hi a ha => ?_
    listed := fun b i hb hi g hg k hk => ?_
    grouping := fun g => by rw [himplanted.grouping]; exact h.grouping g
    module := fun m => by rw [himplanted.module]; exact h.module m }
  · rcases himplanted.put x y hy with hy' | ⟨hnew, -⟩
    · rcases h.contained b x y hb (hx.of_implanted himplanted (Draft.hasItem_of_contains hy')) hy' with
        hw | hw
      · exact .inl (hw.mono himplanted.contains)
      · exact .inr (hlift hw)
    · refine .inl (hx.down hy fun a ha => ?_)
      subst ha
      exact Nat.le_trans h.augments_le (Nat.not_lt.1 hnew)
  · rcases hnodes hb hi with ⟨hi', horigin, -⟩ | hwrap | ⟨o', c, hc, ho', horigin, -⟩
    · exact hlift (h.origin b i o hb hi' (horigin ▸ ho))
    · rw [hwrap.origin] at ho
      cases ho
    · cases horigin.symm.trans ho
      exact hlift ⟨c, hc, ho'⟩
  · by_cases hold : a.index < d.augments.size
    · rw [himplanted.augment a hold] at ho
      exact hlift (h.augmentOrigin b a o hb (ha.of_implanted himplanted hold) ho)
    · have hlt : a.index < d₁.augments.size :=
        ha.hasItem himplanted.sound (himplanted.hasItem (x := .site b) (h.hasSite hb))
      obtain ⟨o', ho', horigin⟩ := himplanted.augments a (Nat.not_lt.1 hold) hlt
      cases horigin.symm.trans ho
      exact hlift <| h.below_of_new hS hbrings hs himplanted hb ha hold ho' fun g heq => by cases heq
  · rcases hnodes hb hi with ⟨hi', -, -, haug⟩ | hwrap | ⟨o, c, hc, ho, -, -, haug⟩
    · exact hlift (h.merged b i hb hi' a (haug ▸ ha))
    · rw [hwrap.augmentations] at ha
      cases ha
    · obtain ⟨c', hc', ha'⟩ := h.merged c.site o hc.root ho a (haug ▸ ha)
      exact hlift ⟨c', hc.trans hc', ha'⟩
  · rcases hnodes hb hi with ⟨hi', -, hgroupings, -⟩ | hwrap | ⟨o, c, hc, ho, -, hgroupings, -⟩
    · exact h.listed b i hb hi' g (hgroupings ▸ hg) k hk
    · rw [hwrap.groupings] at hg
      cases hg
    · exact hc.trans (h.listed c.site o hc.root ho g (hgroupings ▸ hg) k hk)

end Implanted

theorem mapNode (n : NodeId) {f : NodeDraft → NodeDraft} (hf : Harmless f)
    (hgroupings : ∀ r, (f r).groupings = r.groupings)
    (hmerged : ∀ a ∈ (f (d.node n)).augmentations, a ∈ (d.node n).augmentations ∨
      ∀ b, S.Root b → Within S.draft d b (.site (.node n)) → S.Below b (.augment a)) :
    Layered S (d.mapNode n f) := by
  have halike := hf.alike h.sound.unfrozen n
  refine h.of_contains (halike.sound h.sound) halike.hasItem_iff rfl rfl halike.contains
    (fun i => ⟨halike.origin i, ?_⟩) (fun _ => rfl) (fun _ => rfl) (fun _ => rfl) fun i a ha => ?_
  · rw [node_mapNode]
    split
    · exact hgroupings _
    · rfl
  · rw [node_mapNode] at ha
    split at ha
    · next hi =>
      rw [← hi.1] at ha ⊢
      exact hmerged a ha
    · exact .inl ha

theorem stroke (hS : S.Start) (hstroke : S.Stroke d d₁) : Layered S d₁ := by
  cases hstroke with
  | copy hd hb hs himplanted => exact h.implanted hS hb hs himplanted
  | refine n r =>
    exact h.mapNode n (harmless_refinement r) (fun _ => rfl) fun a ha => .inl ha
  | @note style n a d hd hb unknown =>
    refine h.mapNode n (harmless_noteMerged a unknown) (fun _ => rfl) fun a' ha' => ?_
    rcases List.mem_append.1 ha' with ha' | ha'
    · exact .inl ha'
    · obtain rfl := List.mem_singleton.1 ha'
      exact .inr fun b hroot hn => h.below hS hroot hn hb fun g hg => by cases hg
  | mark u p =>
    have halike := alike_mapUses (f := fun r => { r with facts := { r.facts with grouping := p } })
      (fun _ => rfl) h.sound.unfrozen u
    exact h.of_contains (halike.sound h.sound) halike.hasItem_iff rfl rfl halike.contains
      (fun _ => ⟨rfl, rfl⟩) (fun _ => rfl) (fun _ => rfl) (fun _ => rfl) fun _ _ ha => .inl ha

theorem strokes (hS : S.Start) (hstrokes : S.Strokes d d₁) : Layered S d₁ := by
  induction hstrokes with
  | refl => exact h
  | tail _ hstroke ih => exact ih.stroke hS hstroke

/-! ### References -/

/-- A reference leads down in the body, to a body that this one leans on, or to a grouping. -/
theorem refers (hb : S.Root b) (hx : Within S.draft d b x) (hinner : x.Inner) (hy : d.Refers y x) :
    (d.Contains y x ∧ Within S.draft d b y ∧ y.Inner) ∨
      (∃ c, S.Below b c ∧ Within S.draft d c.site y ∧ y.Inner) ∨
      ∃ g, y = .site (.grouping g) ∧ ∀ k, S.draft.Encloses g k → S.Below b (.grouping k) := by
  have hcontains : d.Contains y x → y.Inner → (d.Contains y x ∧ Within S.draft d b y ∧ y.Inner) ∨
      (∃ c, S.Below b c ∧ Within S.draft d c.site y ∧ y.Inner) ∨
      ∃ g, y = .site (.grouping g) ∧ ∀ k, S.draft.Encloses g k → S.Below b (.grouping k) := by
    intro hy hinner
    rcases h.contained b x y hb hx hy with hw | ⟨c, hc, hw⟩
    · exact .inl ⟨hy, hw, hinner⟩
    · exact .inr (.inl ⟨c, hc, hw, hinner⟩)
  cases hy with
  | child hc => exact hcontains (contains_site.2 (.inl ⟨_, hc, rfl⟩)) trivial
  | uses _ hu => exact hcontains (contains_site.2 (.inr ⟨_, hu, rfl⟩)) trivial
  | inner ha => exact hcontains (contains_uses.2 ⟨_, ha, rfl⟩) trivial
  | @merged s a ha =>
    cases s with
    | node i =>
      obtain ⟨c, hc, hw⟩ := h.merged b i hb hx a ha
      exact .inr (.inl ⟨c, hc, hw, trivial⟩)
    | module => exact hinner.elim
    | grouping => cases ha
    | augment => cases ha
  | @grouping s g _ hg =>
    cases s with
    | node i => exact .inr (.inr ⟨g, rfl, h.listed b i hb hx g hg⟩)
    | module => exact hinner.elim
    | grouping => exact hinner.elim
    | augment => cases hg
  | origin _ ho =>
    obtain ⟨c, hc, hw⟩ := h.origin b _ _ hb hx ho
    exact .inr (.inl ⟨c, hc, hw, trivial⟩)
  | augmentOrigin ho =>
    obtain ⟨c, hc, hw⟩ := h.augmentOrigin b _ _ hb hx ho
    exact .inr (.inl ⟨c, hc, hw, trivial⟩)

/-- What stands somewhere refers to what stands somewhere. -/
theorem exists_root (hS : S.Start) (hx : ∃ b, S.Root b ∧ Within S.draft d b x) (hy : d.Refers y x) :
    ∃ b, S.Root b ∧ Within S.draft d b y := by
  obtain ⟨b, hb, hx⟩ := hx
  have hgrouping : ∀ g : GroupingId, g.index < S.draft.groupings.size →
      ∃ b, S.Root b ∧ Within S.draft d b (.site (.grouping g)) :=
    fun g hg => ⟨.grouping g, ⟨hg, by rintro i ⟨⟩⟩, .root⟩
  by_cases hinner : x.Inner
  · rcases h.refers hb hx hinner hy with ⟨-, hw, -⟩ | ⟨c, hc, hw, -⟩ | ⟨g, rfl, hg⟩
    · exact ⟨b, hb, hw⟩
    · exact ⟨c.site, hc.root, hw⟩
    · exact hgrouping g (hg g .refl).site
  · cases hy with
    | child hc => exact ⟨b, hb, hx.child hc⟩
    | uses _ hu => exact ⟨b, hb, hx.listed hu⟩
    | @merged s a ha =>
      cases s with
      | module m =>
        exact ⟨.augment a, ⟨hS.tops m a ((h.module m).2 ▸ ha), by rintro i ⟨⟩⟩, .root⟩
      | node => exact absurd trivial hinner
      | grouping => cases ha
      | augment => cases ha
    | @grouping s g _ hg =>
      cases s with
      | module m => exact hgrouping g (hS.pristine.top m g ((h.module m).1 ▸ hg))
      | grouping k => exact hgrouping g (hS.pristine.nested k g (h.grouping k ▸ hg)).2
      | node => exact absurd trivial hinner
      | augment => cases hg
    | inner => exact absurd trivial hinner
    | origin => exact absurd trivial hinner
    | augmentOrigin => exact absurd trivial hinner

/-- Whatever the modules refer to is there. -/
theorem hasItem_of_reached (hS : S.Start) {is : List ModuleId}
    (his : ∀ m ∈ is, S.draft.HasSite (.module m)) (hx : d.Reached is x) : d.HasItem x := by
  obtain ⟨m, hm, hmx⟩ := hx
  have hroot : ∃ b, S.Root b ∧ Within S.draft d b x := by
    induction hmx with
    | refl => exact ⟨.module m, ⟨his m hm, by rintro i ⟨⟩⟩, .root⟩
    | tail _ hy ih => exact h.exists_root hS ih hy
  obtain ⟨b, hb, hw⟩ := hroot
  exact hw.hasItem h.sound (h.hasSite hb)

/-! ### References that end -/

/-- From a grouping references end, if they do in its body and in those of all groupings inside. -/
theorem acc_grouping (hS : S.Start) {g : GroupingId}
    (hends : ∀ k, S.draft.Encloses g k → EndsIn S.draft d (.grouping k)) :
    Acc d.Refers (.site (.grouping g)) := by
  induction hn : S.draft.groupings.size - g.index using Nat.strong_induction_on generalizing g with
  | _ n ih =>
    refine ⟨_, fun y hy => ?_⟩
    cases hy with
    | child hc => exact hends g .refl _ (Within.root.child hc) trivial
    | uses _ hu => exact hends g .refl _ (Within.root.listed hu) trivial
    | merged ha => cases ha
    | @grouping _ k _ hk =>
      replace hk : k ∈ (S.draft.grouping g).groupings := h.grouping g ▸ hk
      obtain ⟨hlt, hsize⟩ := hS.pristine.nested g k hk
      exact ih _ (by omega) (fun l hl => hends l (.head hk hl)) rfl

theorem endsIn_of_below (hS : S.Start) (hb : S.Root b)
    (hbelow : ∀ c, S.Below b c → EndsIn S.draft d c.site) : EndsIn S.draft d b := by
  intro x
  induction x using h.sound.wf.induction with
  | _ x ih =>
    intro hx hinner
    refine ⟨x, fun y hy => ?_⟩
    rcases h.refers hb hx hinner hy with ⟨hy, hw, hinner⟩ | ⟨c, hc, hw, hinner⟩ | ⟨g, rfl, hg⟩
    · exact ih y hy hw hinner
    · exact hbelow c hc y hw hinner
    · exact h.acc_grouping hS fun k hk => hbelow _ (hg k hk)

variable (hS : S.Start) (hacyclic : ∀ o, ¬ TransGen S.Leans o o)
include hS hacyclic

theorem endsIn {o : Owner} (ho : S.draft.HasSite o.site) : EndsIn S.draft d o.site := by
  have hacc : Acc (fun c o => S.Below o.site c) o := by
    refine acc_of_acyclic (P := fun o => S.draft.HasSite o.site) (n := S.draft.size)
      (fun _ _ _ hc => hc.site) (fun o => S.draft.itemNumber (.site o.site)) ?_ ?_ ?_ ho
    · exact fun o ho => itemNumber_lt ho
    · exact fun o c ho hc hoc => Owner.site_inj (Item.site.inj (itemNumber_inj ho hc hoc))
    · intro o _ hcycle
      refine hacyclic o ?_
      have hleans : ∀ {c o}, TransGen (fun c o : Owner => S.Below o.site c) c o →
          TransGen S.Leans o c := by
        intro c o h
        induction h with
        | single h => exact h.leans _ rfl
        | tail _ h ih => exact (h.leans _ rfl).trans ih
      exact hleans hcycle
  induction hacc with
  | intro o _ ih =>
    exact h.endsIn_of_below hS ⟨ho, o.site_ne_node⟩ fun c hc => ih c hc hc.site

/-- Where no body leans on itself, references from the modules end. -/
theorem acc_module {m : ModuleId} (hm : S.draft.HasSite (.module m)) :
    Acc d.Refers (.site (.module m)) := by
  have hroot : S.Root (.module m) := ⟨hm, by rintro i ⟨⟩⟩
  have hends := h.endsIn_of_below hS hroot fun c hc => h.endsIn hS hacyclic hc.site
  refine ⟨_, fun y hy => ?_⟩
  cases hy with
  | child hc => exact hends _ (Within.root.child hc) trivial
  | uses _ hu => exact hends _ (Within.root.listed hu) trivial
  | @merged _ a ha =>
    replace ha : a ∈ (S.draft.module m).augmentations := (h.module m).2 ▸ ha
    exact h.endsIn hS hacyclic (o := .augment a) (hS.tops m a ha) _ .root trivial
  | @grouping _ g _ hg =>
    replace hg : g ∈ (S.draft.module m).groupings := (h.module m).1 ▸ hg
    refine h.acc_grouping hS fun k hk => h.endsIn hS hacyclic (o := .grouping k) ?_
    exact hS.lt_of_encloses (hS.pristine.top m g hg) hk

end Layered

end YangSchema
