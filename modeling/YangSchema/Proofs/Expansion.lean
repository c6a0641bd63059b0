import YangSchema.Proofs.Completeness
import YangSchema.Proofs.Inference.Records

/-!
# What an expansion does

The refines and the augmentations in a uses name their targets from the place of the uses.  Other nodes
stand there, too, and a target that is not in the grouping may be found among them: only a target that
begins with a name of the grouping is safe from that (`expansion_frame`).

Where the place is a choice, a node of the grouping that is no case gets a case around its copy.  The
copy is then one step further away than the node is in the grouping, and the refines that reach it are
those that name this way (`expansion_copies`).
-/

namespace YangSchema

open Draft Edit

/-! ## Copies -/

/-- The record `r'` says what `r` says, perhaps with more unknown statements and in another place. -/
structure NodeDraft.Says (r r' : NodeDraft) : Prop where
  facts : r'.facts = { r.facts with path := r'.facts.path, unknown := r'.facts.unknown }
  unknown : r.facts.unknown <+: r'.facts.unknown
  config : r'.config = r.config
  origin : r'.origin = r.origin

theorem NodeDraft.Gains.says {r r' : NodeDraft} (h : r.Gains r') : r.Says r' := by
  obtain ⟨children, uses, unknown, augmentations, rfl⟩ := h
  exact ⟨rfl, List.prefix_append _ _, rfl, rfl⟩

/-- Below the node `c` stands a copy of `x` that was merged in, in a case of its own if `c` is a choice
and `x` is no case. -/
def Draft.TakesIn (d : Draft) (c x : NodeId) : Prop :=
  ∃ y ∈ d.childrenOf (.node c),
    d.wraps (.node c) x = false ∧ d.MergedFrom x y ∨
    d.wraps (.node c) x = true ∧ (d.node y).kind = .caseNode true ∧
      ∃ z ∈ d.childrenOf (.node y), d.MergedFrom x z

/-- A body that was merged is below its target. -/
theorem Draft.Takes.takesIn {d d₁ d' : Draft} {t : Site} {c x : NodeId} (hd : d.Sound)
    (h : Takes { augmenting := true } (.node c) t d d₁) (hk : d₁.Keeps d')
    (hc : d.HasSite (.node c)) (hx : x ∈ d.childrenOf t) : d'.TakesIn c x := by
  have hd₁ := h.changes.sound
  have hxlt := hd.child_lt hx
  have hxlt₁ := Nat.lt_of_lt_of_le hxlt h.changes.keeps.nodes_le
  have hc₁ := h.changes.keeps.hasSite hc
  have hwraps : d'.wraps (.node c) x = d.wraps (.node c) x :=
    (h.changes.keeps.trans hk).wraps hc hxlt
  obtain ⟨news, hnews, hall⟩ := h.children_self
  obtain ⟨y, hy, hplanted⟩ := exists_of_forall₂_right hall.flip hx
  have hmem : y ∈ d₁.childrenOf (.node c) := by
    rw [hnews]
    exact List.mem_append_right _ hy
  refine ⟨y, (hk.children _ hc₁).subset hmem, ?_⟩
  rw [hwraps]
  rcases h.planted_cases hd hx hplanted with ⟨hw, hcopy⟩ | ⟨hw, -, z, hcopy, hchildren⟩
  · refine .inl ⟨?_, (h.mergedFrom hcopy).keeps hk hcopy.lt hxlt₁⟩
    exact Bool.eq_false_iff.2 fun h => hw (wraps_eq_true.1 h)
  · have hw := wraps_eq_true.2 hw
    have hz : z ∈ d₁.childrenOf (.node y) := by
      rw [hchildren]
      exact List.mem_singleton_self z
    refine .inr ⟨hw, ?_, z, (hk.children (.node y) hplanted.lt).subset hz,
      (h.mergedFrom hcopy).keeps hk hcopy.lt hxlt₁⟩
    rw [hk.kind y hplanted.lt, (hplanted.wrapped hw).1]

namespace UsesTask

variable {t : UsesTask} {g : GroupingId} {d₀ d d' : Draft} {p : List QName} {n c : NodeId}

/-- What the refines state whose targets have the given local names. -/
def refinesNaming (t : UsesTask) (names : List String) : List Refinement :=
  (t.refines.filter fun r => r.target.steps.map QName.localName == names).map RefineTask.refinement

/-- The names on the way from the place of the uses to the copy of what is at the end of `p` in the
grouping. -/
def wayTo (t : UsesTask) (d : Draft) (g : GroupingId) (p : List QName) : List QName :=
  d.copyWay t.style t.site (.grouping g) p

/-- Names of one module are told apart by their local names. -/
theorem eq_of_map_localName {m : ModuleIdentity} {p p' : List QName} (hp : ∀ q ∈ p, q.owner = m)
    (hp' : ∀ q ∈ p', q.owner = m) (h : p.map QName.localName = p'.map QName.localName) : p = p' := by
  have hbind : ∀ l : List QName, (∀ q ∈ l, q.owner = m) →
      l = (l.map QName.localName).map fun name => ⟨m, name⟩ := by
    intro l hl
    rw [List.map_map]
    refine (List.map_id' l).symm.trans (List.map_congr_left fun q hq => ?_)
    rw [← hl q hq]
    rfl
  rw [hbind p hp, hbind p' hp', h]

theorem owner_of_mem_wayTo {q : QName} (hq : q ∈ t.wayTo d g p) : q.owner = t.home := by
  have hbind : ∀ {l : List QName}, q ∈ l.map t.style.name → q.owner = t.home := by
    intro l hl
    obtain ⟨q', -, rfl⟩ := List.mem_map.1 hl
    rfl
  unfold wayTo copyWay at hq
  split at hq
  · cases hq
  · split at hq
    · rcases List.mem_cons.1 hq with rfl | hq
      · rfl
      · exact hbind hq
    · exact hbind hq

/-- The way has the local names of `p`, after another step if a case is put around the copy. -/
theorem wayTo_localName (q : QName) (p : List QName) : (t.wayTo d g (q :: p)).map QName.localName =
    (if (d.findChild (.grouping g) q).any (d.wraps t.site) then [q.localName] else []) ++
      (q :: p).map QName.localName := by
  have hmap : ∀ l : List QName, (l.map t.style.name).map QName.localName = l.map QName.localName := by
    intro l
    rw [List.map_map]
    rfl
  simp only [wayTo, copyWay]
  split
  · rw [List.map_cons, hmap]
    rfl
  · rw [hmap]
    rfl

/-- The refines that find the node at the end of a way are those that name the way. -/
theorem refinesOf_eq (hd : d.Sound) (ht : ∀ r ∈ t.refines, ∀ q ∈ r.target.steps, q.owner = t.home)
    (hp : d.findDescendant t.site p = some c) (hhome : ∀ q ∈ p, q.owner = t.home) :
    d.refinesOf t.site t.refines c = t.refinesNaming (p.map QName.localName) := by
  unfold refinesOf refinesNaming
  congr 1
  refine List.filter_congr fun r hr => ?_
  rw [Bool.eq_iff_iff, beq_iff_eq, beq_iff_eq]
  constructor
  · intro hfound
    have hleads := Leads.of_descend (findDescendant_eq_some.1 hfound).2
    rw [hleads.path_unique hd (Leads.of_descend (findDescendant_eq_some.1 hp).2)]
  · intro hnames
    rw [eq_of_map_localName (ht r hr) hhome hnames, hp]

namespace Stands

variable (ht : t.Stands d₀) (h₀ : d₀.Sound)
  (hacyclic : ∀ g, t.resolve d₀ = some g → t.innermostGrouping ≠ some g) (hd : d₀.Follows d)
  (h : t.Expanded g d d')

include ht h₀ hacyclic hd h

/-- The copy of a node of the grouping, and what it says. -/
theorem exists_copy (hn : d.findDescendant (.grouping g) p = some n) :
    ∃ c, d'.findDescendant t.site (t.wayTo d g p) = some c ∧ d.nodes.size ≤ c.index ∧
      ((Refinement.joint (t.refinesNaming ((t.wayTo d g p).map QName.localName))).apply
        (t.style.node n (d.node n))).Says (d'.node c) := by
  have hres : t.resolve d₀ = some g := (hd.resolve t).symm.trans h.resolve
  obtain ⟨d₁, d₂, d₃, hg, hu, hr, hm⟩ := h.graft
  have hq := quiet_marked hd.sound t.site t.uses (d.grouping g).facts.path
  have htakes := ht.takes h₀ (hacyclic g hres) hd h.fresh hq hg
  obtain ⟨hne, hdesc⟩ := findDescendant_eq_some.1 hn
  -- marking the uses leaves the nodes alone
  obtain ⟨c, hc, hcopy⟩ := htakes.exists_copy hq.sound (n := n) (p := p) (by
    rw [(alike_marked hd.sound.unfrozen t.uses _).descend]
    exact hdesc)
  replace hc : d₁.descend t.site (t.wayTo d g p) = some (.node c) := hc
  have hch := (hq.toChanges.trans hd.sound hg.changes).trans hd.sound hu.toChanges
  have hway : t.wayTo d g p ≠ [] := by
    intro hnil
    obtain ⟨q, p, rfl⟩ := List.exists_cons_of_ne_nil hne
    have := congrArg (List.map QName.localName) hnil
    rw [wayTo_localName] at this
    simp at this
  have hc₂ : d₂.findDescendant t.site (t.wayTo d g p) = some c :=
    findDescendant_eq_some.2 ⟨hway, hu.keeps.descend hg.changes.sound hc⟩
  have hlt₂ := findDescendant_lt hu.sound hc₂
  have hk₂ : d₂.Keeps d' := hr.keeps.trans (hm.changes hr.sound).keeps
  refine ⟨c, findDescendant_eq_some.2 ⟨hway, hk₂.descend hu.sound (findDescendant_eq_some.1 hc₂).2⟩,
    Nat.le_trans hq.keeps.nodes_le hcopy.new, ?_⟩
  have hgains := (record_of_refined hr hm (i := c) (fun a ha => Nat.lt_of_lt_of_le
    (hd.sound.augment_lt t.uses a ha) hch.keeps.augments_le) hlt₂).1
  rw [refinesOf_eq hu.sound ht.refines hc₂ fun q hq => owner_of_mem_wayTo hq] at hgains
  -- the record of the copy
  have hrecord : d₂.node c = { (t.style.node n (d.node n)).withPath (d₁.node c).path with
      children := (d₁.node c).children
      uses := d₂.usesAt (.node c)
      parent := (d₁.node c).parent } := by
    rw [hu.record c hcopy.lt, (htakes.copyOf hcopy).node]
    rfl
  rw [hrecord] at hgains
  obtain ⟨hfacts, hunknown, hconfig, horigin⟩ := hgains.says
  exact ⟨hfacts, hunknown, hconfig, horigin⟩

/-- The augmentations in a uses that name the node at the end of a way go into it. -/
theorem takesIn (hc : d'.findDescendant t.site p = some c) (hhome : ∀ q ∈ p, q.owner = t.home)
    {a : AugmentId} (ha : a ∈ (d.usesOf t.uses).augmentations)
    (hnames : (d.augment a).facts.target.steps.map QName.localName = p.map QName.localName)
    {x : NodeId} (hx : x ∈ d.childrenOf (.augment a)) : d'.TakesIn c x := by
  have hres : t.resolve d₀ = some g := (hd.resolve t).symm.trans h.resolve
  rw [hd.augmentations t.uses ht.uses] at ha
  have hlt := h₀.augment_lt t.uses a ha
  rw [hd.keeps.target a hlt] at hnames
  obtain rfl := eq_of_map_localName (ht.targets a ha) hhome hnames
  have hmem : ⟨{ augmenting := true }, t.site, (d₀.augment a).facts.target.steps, .augment a⟩ ∈
      t.grafts d₀ := by
    unfold grafts
    rw [hres]
    exact List.mem_cons_of_mem _ (List.mem_map.2 ⟨a, ha, rfl⟩)
  obtain ⟨e, e', hke, hfollows, ⟨s, hs, htakes⟩, hk'⟩ :=
    (ht.makes_expanded h₀ hacyclic hd h).exists_made hmem
  have hsc : some s = some (Site.node c) := by
    rw [← (findDescendant_eq_some.1 hc).2]
    exact ((htakes.changes.keeps.trans hk').descend hfollows.sound hs).symm
  obtain rfl := Option.some.inj hsc
  have hsite : e.HasSite (.node c) := hasSite_of_under ((Leads.of_descend hs).under hfollows.sound)
    (hfollows.keeps.hasSite ht.site)
  refine htakes.takesIn hfollows.sound hk' hsite ?_
  exact (hke.children (.augment a) (hasSite_of_mem_childrenOf hx)).subset hx

end Stands

end UsesTask

/-! ## Expansions in a build -/

section Build

variable {r : Registry} {config : BuildConfig} {order : List Source} {modules : List ModuleId}
  {w : Workspace} {ms : List Move} {S : Stage} {t : UsesTask} {busy : List Owner} {d' : Draft}

theorem exists_expanded (hS : S.From w.draft) (ht : t ∈ S.uses)
    (h : (t.attempt busy).perform S.draft = (.ok .applied, d')) : ∃ g, t.Expanded g S.draft d' :=
  ((UsesTask.ends_attempt hS.sound (hS.fits t ht) busy).of_ok h).2

/-- At any stage of a build an expansion changes the nodes that are there as follows.  The site gets
more children and uses.  Any other node gets what the refines say whose targets find it, and more in
its lists if it is found by the target of an augmentation in the uses; so one that no target finds
stays as it is.  A target that begins with a name of the grouping finds none of them. -/
theorem expansion_frame (hdeclared : (declareModules r config order).run {} = .ok (modules, w))
    (hcycle : checkGroupings w.draft w.tasks.uses = .ok ())
    (hr : Run (w.tasks.stage w.draft) ms S) (ht : t ∈ S.uses)
    (happlied : (t.attempt busy).perform S.draft = (.ok .applied, d')) :
    ∃ g, t.resolve S.draft = some g ∧
      (∀ i : NodeId, i.index < S.draft.nodes.size →
        (t.site = .node i → ∃ children uses, d'.node i = { S.draft.node i with
          children := (S.draft.node i).children ++ children
          uses := (S.draft.node i).uses ++ uses }) ∧
        (t.site ≠ .node i →
          ((Refinement.joint (S.draft.refinesOf t.site t.refines i)).apply
            (S.draft.node i)).Gains (d'.node i) ∧
          ((∀ a ∈ (S.draft.usesOf t.uses).augmentations,
              S.draft.findDescendant t.site (S.draft.augment a).facts.target.steps ≠ some i) →
            d'.node i = (Refinement.joint (S.draft.refinesOf t.site t.refines i)).apply
              (S.draft.node i)) ∧
          ((∀ p ∈ t.targets S.draft, S.draft.findDescendant t.site p.steps ≠ some i) →
            d'.node i = S.draft.node i))) ∧
      ∀ p ∈ t.targets S.draft, ∀ c ∈ S.draft.childrenOf (.grouping g),
        p.steps.head? = some ((S.draft.node c).name.bindTo t.home) →
          S.draft.findDescendant t.site p.steps = none := by
  have hsane : w.Sane := (gives_declareModules r config order modules w hdeclared).toSane
  have hS := hr.from (hsane.from hcycle)
  obtain ⟨g, hg⟩ := exists_expanded hS ht happlied
  refine ⟨g, hg.resolve, fun i hi => ⟨fun hsite => hg.record_self hS.sound hi hsite, fun hsite => ?_⟩,
    fun p _ c hc hhead => ?_⟩
  · obtain ⟨hgains, hsame⟩ := hg.record hS.sound hi hsite
    refine ⟨hgains, hsame, fun hno => ?_⟩
    have hnone : S.draft.refinesOf t.site t.refines i = [] := by
      unfold Draft.refinesOf
      rw [List.filter_eq_nil_iff.2 fun r hr => ?_, List.map_nil]
      simpa using hno r.target (List.mem_append_left _ (List.mem_map_of_mem hr))
    rw [hsame fun a ha => hno _ (List.mem_append_right _ (List.mem_map_of_mem ha)), hnone,
      Refinement.joint_nil_apply]
  · rw [Option.eq_none_iff_forall_ne_some]
    intro i hi
    obtain ⟨q, p, hsteps⟩ := List.exists_cons_of_ne_nil (findDescendant_eq_some.1 hi).1
    rw [hsteps] at hi hhead
    obtain ⟨c', hc', -⟩ := descend_cons.1 (findDescendant_eq_some.1 hi).2
    -- the name would have clashed
    rw [Option.some.inj hhead, hg.fresh c hc] at hc'
    cases hc'

/-- A module with a container that holds a leaf and a uses; the refine in the uses names that leaf,
which the grouping does not have. -/
def strayingSource : Source where
  label := "m.yang"
  kind := .module
  name := "m"
  namespaceUri := some "urn:m"
  parent := none
  ownPrefix := "m"
  revision := none
  header := {}
  imports := []
  includes := []
  root := {
    keyword := .word .moduleWord
    argument := some "m"
    children := [
      { keyword := .word .grouping, argument := some "g"
        children := [{ keyword := .word .leaf, argument := some "x" }] },
      { keyword := .word .container, argument := some "c"
        children := [
          { keyword := .word .leaf, argument := some "y" },
          { keyword := .word .uses, argument := some "g"
            children := [
              { keyword := .word .refine, argument := some "y"
                children := [{ keyword := .word .mandatory, argument := some "true" }] }] }] }] }

/-- The expansion makes the leaf mandatory that was declared beside the uses. -/
theorem expansion_frame_strayingSource :
    ∃ modules w t d' i, (declareModules .empty {} [strayingSource]).run {} = .ok (modules, w) ∧
      checkGroupings w.draft w.tasks.uses = .ok () ∧ w.tasks.uses = [t] ∧
      (t.attempt []).perform w.draft = (.ok .applied, d') ∧ i.index < w.draft.nodes.size ∧
      t.site ≠ .node i ∧ (w.draft.node i).constraints.mandatory = none ∧
      (d'.node i).constraints.mandatory = some true := by
  have hcheck : (((declareModules .empty {} [strayingSource]).run {}).toOption.any fun x =>
      (only? x.2.tasks.uses).any fun t =>
        decide (checkGroupings x.2.draft [t] = .ok () ∧
          ((t.attempt []).perform x.2.draft).1 = .ok .applied ∧
          2 < x.2.draft.nodes.size ∧ t.site = .node ⟨1⟩ ∧
          (x.2.draft.usesOf t.uses).augmentations = [] ∧
          (x.2.draft.node ⟨2⟩).constraints.mandatory = none ∧
          (Refinement.joint (x.2.draft.refinesOf t.site t.refines ⟨2⟩)).mandatory = some true)) =
        true := by decide +kernel
  simp only [Option.any_eq_true, toOption_eq_some, only?_eq_some, decide_eq_true_eq] at hcheck
  obtain ⟨⟨modules, w⟩, hdeclared, t, huses, hcycle, happlied, hlt, hsite, haug, hold, hnew⟩ := hcheck
  rw [← huses] at hcycle
  have hne : t.site ≠ .node ⟨2⟩ := by
    rw [hsite]
    decide
  have hperform : (t.attempt []).perform w.draft =
      (.ok .applied, ((t.attempt []).perform w.draft).2) := Prod.ext happlied rfl
  have ht : t ∈ w.tasks.uses := by
    rw [huses]
    exact List.mem_singleton_self t
  obtain ⟨g, -, hframe, -⟩ := expansion_frame hdeclared hcycle (.nil _) ht hperform
  have hrecord := ((hframe ⟨2⟩ hlt).2 hne).2.1 fun a ha => by
    replace ha : a ∈ (w.draft.usesOf t.uses).augmentations := ha
    rw [haug] at ha
    cases ha
  refine ⟨modules, w, t, _, ⟨2⟩, hdeclared, hcycle, huses, hperform, hlt, hne, hold, ?_⟩
  rw [hrecord]
  exact congrArg (Option.or · (w.draft.node ⟨2⟩).constraints.mandatory) hnew

/-- At any stage of a build an expansion makes a copy of each node that has a way `p` to it in the
grouping.  The copy is found along the way that the expansion gives it (`UsesTask.wayTo_localName`), by
no other.  It says what the refines that name this way say, one after the other, of what the node
says, and it takes in the augmentations in the uses that name this way. -/
theorem expansion_copies (hdeclared : (declareModules r config order).run {} = .ok (modules, w))
    (hcycle : checkGroupings w.draft w.tasks.uses = .ok ())
    (hr : Run (w.tasks.stage w.draft) ms S) (ht : t ∈ S.uses)
    (happlied : (t.attempt busy).perform S.draft = (.ok .applied, d')) :
    ∃ g, t.resolve S.draft = some g ∧
      ∀ p n, S.draft.findDescendant (.grouping g) p = some n →
        ∃ c, S.draft.nodes.size ≤ c.index ∧
          (∀ p', d'.findDescendant t.site p' = some c ↔ p' = t.wayTo S.draft g p) ∧
          ((Refinement.joint (t.refinesNaming ((t.wayTo S.draft g p).map QName.localName))).apply
            (t.style.node n (S.draft.node n))).Says (d'.node c) ∧
          ∀ a ∈ (S.draft.usesOf t.uses).augmentations,
            (S.draft.augment a).facts.target.steps.map QName.localName =
              (t.wayTo S.draft g p).map QName.localName →
            ∀ x ∈ S.draft.childrenOf (.augment a), d'.TakesIn c x := by
  have hsane : w.Sane := (gives_declareModules r config order modules w hdeclared).toSane
  have hS := hr.from (hsane.from hcycle)
  obtain ⟨g, hg⟩ := exists_expanded hS ht happlied
  have hstands := hS.stands t ht
  have hacyclic : ∀ g, t.resolve w.draft = some g → t.innermostGrouping ≠ some g := by
    intro g hres
    rw [← hS.follows.resolve] at hres
    exact hS.acyclic t ht g hres
  refine ⟨g, hg.resolve, fun p n hn => ?_⟩
  obtain ⟨c, hc, hnew, hsays⟩ := hstands.exists_copy hS.start hacyclic hS.follows hg hn
  refine ⟨c, hnew, fun p' => ⟨fun hp' => ?_, ?_⟩, hsays, fun a ha hnames x hx => ?_⟩
  · exact (Leads.of_descend (findDescendant_eq_some.1 hp').2).path_unique
      (hg.changes hS.sound).sound (Leads.of_descend (findDescendant_eq_some.1 hc).2)
  · rintro rfl
    exact hc
  · exact hstands.takesIn hS.start hacyclic hS.follows hg hc
      (fun q hq => UsesTask.owner_of_mem_wayTo hq) ha hnames hx

/-- A module with a choice that holds a uses; the refine in it names the leaf of the grouping. -/
def choosingSource : Source where
  label := "m.yang"
  kind := .module
  name := "m"
  namespaceUri := some "urn:m"
  parent := none
  ownPrefix := "m"
  revision := none
  header := {}
  imports := []
  includes := []
  root := {
    keyword := .word .moduleWord
    argument := some "m"
    children := [
      { keyword := .word .grouping, argument := some "g"
        children := [{ keyword := .word .leaf, argument := some "x" }] },
      { keyword := .word .choice, argument := some "ch"
        children := [
          { keyword := .word .uses, argument := some "g"
            children := [
              { keyword := .word .refine, argument := some "x"
                children := [{ keyword := .word .mandatory, argument := some "true" }] }] }] }] }

/-- The refine names the leaf, but the copy of the leaf is not made mandatory: it is a step further
away, in a case. -/
theorem expansion_copies_choosingSource :
    ∃ modules w t d' g n rf c, (declareModules .empty {} [choosingSource]).run {} = .ok (modules, w) ∧
      checkGroupings w.draft w.tasks.uses = .ok () ∧ w.tasks.uses = [t] ∧
      (t.attempt []).perform w.draft = (.ok .applied, d') ∧ t.resolve w.draft = some g ∧
      w.draft.findDescendant (.grouping g) [⟨⟨"urn:m", none⟩, "x"⟩] = some n ∧
      t.refines = [rf] ∧ rf.target.steps = [⟨⟨"urn:m", none⟩, "x"⟩] ∧
      rf.refinement.mandatory = some true ∧ (d'.node c).origin = some n ∧
      d'.findDescendant t.site [⟨⟨"urn:m", none⟩, "x"⟩, ⟨⟨"urn:m", none⟩, "x"⟩] = some c ∧
      (d'.node c).constraints.mandatory = none := by
  have hcheck : (((declareModules .empty {} [choosingSource]).run {}).toOption.any fun x =>
      (only? x.2.tasks.uses).any fun t => (only? t.refines).any fun rf =>
        decide (checkGroupings x.2.draft [t] = .ok () ∧
          ((t.attempt []).perform x.2.draft).1 = .ok .applied ∧
          t.resolve x.2.draft = some ⟨0⟩ ∧
          x.2.draft.findDescendant (.grouping ⟨0⟩) [⟨⟨"urn:m", none⟩, "x"⟩] = some ⟨0⟩ ∧
          rf.target.steps = [⟨⟨"urn:m", none⟩, "x"⟩] ∧ rf.refinement.mandatory = some true ∧
          t.wayTo x.2.draft ⟨0⟩ [⟨⟨"urn:m", none⟩, "x"⟩] =
            [⟨⟨"urn:m", none⟩, "x"⟩, ⟨⟨"urn:m", none⟩, "x"⟩] ∧
          (Refinement.joint (t.refinesNaming ["x", "x"])).mandatory = none ∧
          (x.2.draft.node ⟨0⟩).constraints.mandatory = none)) = true := by decide +kernel
  simp only [Option.any_eq_true, toOption_eq_some, only?_eq_some, decide_eq_true_eq] at hcheck
  obtain ⟨⟨modules, w⟩, hdeclared, t, huses, rf, hrefines, hcycle, happlied, hres, hn, hsteps, hstated,
    hway, hjoint, hold⟩ := hcheck
  rw [← huses] at hcycle
  have hperform : (t.attempt []).perform w.draft =
      (.ok .applied, ((t.attempt []).perform w.draft).2) := Prod.ext happlied rfl
  have ht : t ∈ w.tasks.uses := by
    rw [huses]
    exact List.mem_singleton_self t
  obtain ⟨g, hg, hcopies⟩ := expansion_copies hdeclared hcycle (.nil _) ht hperform
  obtain rfl : g = ⟨0⟩ := Option.some.inj (hg.symm.trans hres)
  obtain ⟨c, -, hc, hsays, -⟩ := hcopies _ _ hn
  refine ⟨modules, w, t, _, ⟨0⟩, ⟨0⟩, rf, c, hdeclared, hcycle, huses, hperform, hres, hn, hrefines,
    hsteps, hstated, hsays.origin, (hc _).2 hway.symm, ?_⟩
  have hnames : (t.wayTo w.draft ⟨0⟩ [⟨⟨"urn:m", none⟩, "x"⟩]).map QName.localName = ["x", "x"] :=
    congrArg (List.map QName.localName) hway
  rw [← hnames] at hjoint
  refine (congrArg (fun f => f.constraints.mandatory) hsays.facts).trans ?_
  exact (congrArg (Option.or · (w.draft.node ⟨0⟩).constraints.mandatory) hjoint).trans hold

end Build

end YangSchema
