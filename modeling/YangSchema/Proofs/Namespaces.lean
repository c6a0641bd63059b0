import YangSchema.Proofs.Building
import YangSchema.Proofs.Inference.Belonging
import YangSchema.Proofs.Schema.Declared

/-!
# Namespaces

Whatever a module declares is named in the module, whichever of its sources declares it, and so is all
that uses bring into its declarations.  Only what augmentations of other modules merge into its data
nodes keeps another name, and that is marked (`buildSchema_namespaces`).
-/

namespace YangSchema

open Draft

namespace Draft

variable {d₀ d d' : Draft} {x y : Item} {I : ModuleIdentity}

/-- The item was declared in a place that belongs to the module; a uses may have been copied to it. -/
def DeclaredIn (d₀ d : Draft) (I : ModuleIdentity) : Item → Prop
  | .site s => d₀.HasSite s ∧ d₀.homeAt s = I
  | .uses u => ∃ s, u ∈ d.usesAt s ∧ d₀.HasSite s ∧ d₀.homeAt s = I

/-- What stands in a declaration of a module was declared in it, or copied. -/
theorem Retains.declaredIn_of_houses (h : d₀.Retains d) (hhomely : d₀.Homely) (hpristine : d₀.Pristine)
    (hx : d₀.DeclaredIn d I x) (hy : d.Houses y x)
    (hold : ∀ s, y = .site s → d.HasSite s → d₀.HasSite s) : d₀.DeclaredIn d I y := by
  cases hy with
  | @contained x y hc =>
    have hitem := h.sound.hasItem_of_contains hc
    cases x with
    | site s =>
      obtain ⟨hs, rfl⟩ := hx
      rcases contains_site.1 hc with ⟨c, hmem, rfl⟩ | ⟨u, hmem, rfl⟩
      · have hnode := hold _ rfl hitem
        exact ⟨hnode, h.homeAt_child hhomely hmem hnode⟩
      · exact ⟨s, hmem, hs, rfl⟩
    | uses u =>
      obtain ⟨s, hu, -, rfl⟩ := hx
      obtain ⟨a, ha, rfl⟩ := contains_uses.1 hc
      have haugment := hold _ rfl hitem
      exact ⟨haugment, h.homeAt_inner hhomely hu ha haugment⟩
  | @grouping s g hg =>
    obtain ⟨hs, rfl⟩ := hx
    rw [h.groupingsAt s hs] at hg
    exact ⟨hpristine.grouping_lt hg, hhomely.groupings s g hg⟩
  | @top m a ha =>
    obtain ⟨-, rfl⟩ := hx
    exact hhomely.tops m a (h.tops m ▸ ha)

/-- Deviations put nothing anywhere. -/
theorem Trimmed.houses (h : Trimmed d d') (hy : d'.Houses y x) : d.Houses y x := by
  cases hy with
  | @contained x y hc =>
    refine .contained ?_
    cases x with
    | site s =>
      rcases contains_site.1 hc with ⟨c, hmem, rfl⟩ | ⟨u, hmem, rfl⟩
      · exact contains_site.2 (.inl ⟨c, (h.children s).subset hmem, rfl⟩)
      · exact contains_site.2 (.inr ⟨u, (h.lists s).1 ▸ hmem, rfl⟩)
    | uses u =>
      rw [contains_uses, h.usesOf_eq] at hc
      exact contains_uses.2 hc
  | @grouping s g hg => exact .grouping ((h.lists s).2.1 ▸ hg)
  | @top m a ha => exact .top ((h.lists (.module m)).2.2 ▸ ha)

end Draft

/-! ## Builds -/

namespace Builds.Course

variable {sources : List ParsedSource} {config : BuildConfig} {modules : List ModuleId} {w : Workspace}
  {d d' : Draft} {schema : Schema} {m : Module} {k : ModuleId} {p : Part} {s : Site} {i j : NodeId}
  {n t : Node} (h : Course sources config modules w d d' schema)
include h

theorem retains : w.draft.Retains d := (Retains.refl h.sane.sound).strokes h.strokes

theorem belongs : w.draft.Belongs d :=
  Belongs.strokes (S := w.tasks.stage w.draft) h.sane.homely h.sane.sound h.sane.uses h.strokes

theorem exists_module (hm : m ∈ schema.modules) :
    ∃ k, w.draft.HasSite (.module k) ∧ d'.ModuleSnapshot k m := by
  obtain ⟨k, hk, hkm⟩ := exists_of_forall₂_right h.snapshots hm
  exact ⟨k, (h.sane.mem_modules k).1 hk, hkm⟩

theorem facts (hkm : d'.ModuleSnapshot k m) : m.facts = (w.draft.module k).facts := by
  obtain ⟨children, -, hmodule⟩ := h.pruned.module k
  rw [hkm.facts, hmodule]
  exact h.retains.facts k

theorem identity (hkm : d'.ModuleSnapshot k m) : m.identity = w.draft.homeAt (.module k) :=
  congrArg ModuleFacts.identity (h.facts hkm)

theorem node_eq (i : NodeId) : (d'.node i).name = (d.node i).name ∧ (d'.node i).kind = (d.node i).kind ∧
    (d'.node i).facts.augmenting = (d.node i).facts.augmenting ∧
    (d'.node i).origin = (d.node i).origin := by
  rw [(h.pruned.node i).record]
  exact ⟨rfl, rfl, rfl, rfl⟩

/-- In a snapshot is what a written node or a copy of one says, below its node. -/
theorem exists_written (hn : d'.NodeSnapshot i n) (ht : t ∈ n.preorder) :
    ∃ j, d.Under (.node j) (.node i) ∧ (d.node j).kind ≠ .caseNode true ∧ Echoes (d.node j) t := by
  obtain ⟨p, l, hp, hl⟩ := hn.exists_leads ht
  obtain ⟨j, hj, hkind, hname, haugmenting, horigin⟩ := hl.exists_written h.pruned.sound
  obtain ⟨hname', hkind', haugmenting', horigin'⟩ := h.node_eq j
  exact ⟨j, h.pruned.under (hj.trans (hp.under h.pruned.sound)), hkind' ▸ hkind, hname.trans hname',
    haugmenting.trans haugmenting', by rw [horigin, horigin']⟩

/-- What is no copy was declared. -/
theorem hasSite_of_not_copy (hp : d'.PartSnapshot (.site s) p) (hcopy : p.isCopy = false)
    (hs : d.HasSite s) : w.draft.HasSite s := by
  cases hp with
  | @node i n hn =>
    obtain ⟨j, hj, hkind, -, -, horigin⟩ := h.exists_written hn (Node.mem_preorder.2 (.inl rfl))
    have hnone : (d.node j).origin = none := by
      rw [← Option.not_isSome_iff_eq_none, ← horigin]
      exact Bool.eq_false_iff.1 hcopy
    exact h.retains.hasSite_of_under h.sane.sound
      (h.retains.copied j (hasSite_of_under hj hs) hkind hnone) hj
  | grouping => exact h.follows.hasSite_grouping hs
  | @augmentation a v hv =>
    refine h.retains.augments a hs ?_
    have hrel := hv.uses_origin.2
    rw [h.pruned.augment_eq] at hrel
    change v.origin.isSome = false at hcopy
    generalize v.origin = o at hrel hcopy
    generalize (d.augment a).origin = o' at hrel
    cases hrel with
    | none => rfl
    | some => cases hcopy

theorem exists_of_houses {x y : Item} {I : ModuleIdentity} (hx : w.draft.DeclaredIn d I x)
    (hy : d'.Houses y x) (hp : d'.PartSnapshot y p) (hcopy : p.isCopy = false) :
    ∃ y, w.draft.DeclaredIn d I y ∧ d'.PartSnapshot y p := by
  refine ⟨y, ?_, hp⟩
  refine h.retains.declaredIn_of_houses h.sane.homely h.sane.pristine hx (h.pruned.houses hy) ?_
  rintro s rfl hs
  exact h.hasSite_of_not_copy hp hcopy hs

/-- What a module declares are snapshots of what was declared in it. -/
theorem exists_declared (hk : w.draft.HasSite (.module k)) (hkm : d'.ModuleSnapshot k m)
    (hp : m.Declares p) : ∃ x, w.draft.DeclaredIn d m.identity x ∧ d'.PartSnapshot x p := by
  induction hp with
  | listed hp hcopy =>
    obtain ⟨y, hy, hyp⟩ := hkm.exists_of_parts hp
    exact h.exists_of_houses (x := .site (.module k)) ⟨hk, (h.identity hkm).symm⟩ hy hyp hcopy
  | inside _ hq hcopy ih =>
    obtain ⟨x, hx, hxp⟩ := ih
    obtain ⟨y, hy, hyq⟩ := hxp.exists_of_contents hq
    exact h.exists_of_houses hx hy hyq hcopy

/-- A snapshot of something in a body is named in the module of the body. -/
theorem owner_of_body {b : Owner} (hb : w.draft.HasSite b.site) {l : List NodeId} {ns : List Node}
    (hl : d'.childrenOf b.site = l) (hns : List.Forall₂ d'.NodeSnapshot l ns)
    (ht : t ∈ Node.preorderAll ns) : t.name.owner = w.draft.homeOf b := by
  rw [Node.preorderAll_eq_flatMap] at ht
  obtain ⟨n, hn, ht⟩ := List.mem_flatMap.1 ht
  obtain ⟨c, hc, hcn⟩ := exists_of_forall₂_right hns hn
  obtain ⟨j, hj, -, hname, -, -⟩ := h.exists_written hcn ht
  have hmem : c ∈ d.childrenOf b.site := (h.pruned.children b.site).subset (hl ▸ hc)
  rw [hname]
  exact h.follows.owner hb (hj.trans (h.retains.sound.under_of_mem (.refl _) hmem))

/-- A grouping that a module declares is named in the module, with all that stands in it. -/
theorem owner_of_grouping (hk : w.draft.HasSite (.module k)) (hkm : d'.ModuleSnapshot k m) {g : Grouping}
    (hg : m.Declares (.grouping g)) : g.facts.name.owner = m.identity ∧
      ∀ t ∈ Node.preorderAll g.children, t.name.owner = m.identity := by
  obtain ⟨x, hx, hxg⟩ := h.exists_declared hk hkm hg
  cases hxg with
  | @grouping i _ hi =>
    obtain ⟨hsite, hhome⟩ := hx
    obtain ⟨hfacts, hchildren, -, -⟩ := hi.parts
    refine ⟨?_, fun t ht => ?_⟩
    · rw [hfacts, h.pruned.grouping_eq, h.follows.keeps.grouping i hsite]
      exact hhome
    · exact (h.owner_of_body (b := .grouping i) hsite rfl hchildren ht).trans hhome

/-- So are an augmentation that a module declares, and what it merges. -/
theorem owner_of_augmentation (hk : w.draft.HasSite (.module k)) (hkm : d'.ModuleSnapshot k m)
    {a : Augmentation} (ha : m.Declares (.augmentation a)) : a.facts.home = m.identity ∧
      ∀ t ∈ Node.preorderAll a.children, t.name.owner = m.identity := by
  obtain ⟨x, hx, hxa⟩ := h.exists_declared hk hkm ha
  cases hxa with
  | @augmentation i _ hi =>
    obtain ⟨hsite, hhome⟩ := hx
    obtain ⟨hfacts, hchildren⟩ := hi.facts_children
    refine ⟨?_, fun t ht => ?_⟩
    · rw [hfacts, h.pruned.augment_eq, h.follows.keeps.home i hsite]
      exact hhome
    · exact (h.owner_of_body (b := .augment i) hsite rfl hchildren ht).trans hhome

/-- The nodes of a module are snapshots of what stood at its top before the deviations. -/
theorem exists_top (hkm : d'.ModuleSnapshot k m) (hn : n ∈ m.topLevel) :
    ∃ c ∈ d.childrenOf (.module k), d'.NodeSnapshot c n := by
  obtain ⟨c, hc, hcn⟩ := hkm.exists_top hn
  exact ⟨c, (h.pruned.children (.module k)).subset hc, hcn⟩

/-- A node at the top of a module is named in it. -/
theorem owner_of_top (hk : w.draft.HasSite (.module k)) (hkm : d'.ModuleSnapshot k m)
    (hn : n ∈ m.topLevel) : n.name.owner = m.identity := by
  obtain ⟨c, hc, hcn⟩ := h.exists_top hkm hn
  have hkind : (d.node c).kind ≠ .caseNode true :=
    h.follows.regular.unwrapped _ hk _ (.refl _) rfl c hc
  have hwritten : (d'.node c).kind.isShorthandCase = false := by
    rw [Bool.eq_false_iff, (h.node_eq c).2.1]
    exact fun hcase => hkind (NodeKind.isShorthandCase_iff.1 hcase)
  have hname : n.name = (d.node c).name :=
    (congrArg NodeFacts.name (hcn.of_not_shorthand hwritten).1).trans (h.node_eq c).1
  rw [hname, h.identity hkm]
  rcases h.belongs k c hk (h.follows.sound.under_of_mem (.refl _) hc) hkind with
    howner | ⟨-, hparent⟩
  · exact howner
  · exact absurd (h.follows.sound.parent_eq hc) hparent

/-- Below the top of a module a node is named in it, or was merged in. -/
theorem augmenting_of_foreign (hk : w.draft.HasSite (.module k)) (hkm : d'.ModuleSnapshot k m)
    (ht : t ∈ Node.preorderAll m.topLevel) (howner : t.name.owner ≠ m.identity) :
    t.facts.augmenting = true := by
  rw [Node.preorderAll_eq_flatMap] at ht
  obtain ⟨n, hn, ht⟩ := List.mem_flatMap.1 ht
  obtain ⟨c, hc, hcn⟩ := h.exists_top hkm hn
  obtain ⟨j, hj, hkind, hname, haugmenting, -⟩ := h.exists_written hcn ht
  rw [hname, h.identity hkm] at howner
  rw [haugmenting]
  have hunder := hj.trans (h.follows.sound.under_of_mem (.refl _) hc)
  exact ((h.belongs k j hk hunder hkind).resolve_left howner).1

end Builds.Course

/-- In the schema of a build the nodes and groupings that a module lists are named in the module, and so
are the type definitions, extensions, features and identities that it defines.  All nodes in a grouping
or an augmentation that it declares, wherever in the module, are named in it, too.  A node in its data
trees that is named in another module was merged in by an augmentation. -/
theorem buildSchema_namespaces {sources : List ParsedSource} {config : BuildConfig} {schema : Schema}
    (h : buildSchema sources config = .ok schema) {m : Module} (hm : m ∈ schema.modules) :
    (∀ n ∈ m.topLevel, n.name.owner = m.identity) ∧
      (∀ g ∈ m.groupings, g.facts.name.owner = m.identity) ∧
      (∀ q ∈ m.facts.definedNames, q.owner = m.identity) ∧
      (∀ g, m.Declares (.grouping g) → g.facts.name.owner = m.identity ∧
        ∀ n ∈ Node.preorderAll g.children, n.name.owner = m.identity) ∧
      (∀ a, m.Declares (.augmentation a) → a.facts.home = m.identity ∧
        ∀ n ∈ Node.preorderAll a.children, n.name.owner = m.identity) ∧
      ∀ n ∈ Node.preorderAll m.topLevel, n.name.owner ≠ m.identity → n.facts.augmenting = true := by
  obtain ⟨modules, w, d, d', hcourse⟩ := exists_course h
  obtain ⟨k, hk, hkm⟩ := hcourse.exists_module hm
  refine ⟨fun n hn => hcourse.owner_of_top hk hkm hn, fun g hg => ?_, fun q hq => ?_,
    fun g hg => hcourse.owner_of_grouping hk hkm hg, fun a ha => hcourse.owner_of_augmentation hk hkm ha,
    fun n hn howner => hcourse.augmenting_of_foreign hk hkm hn howner⟩
  · refine (hcourse.owner_of_grouping hk hkm (.listed ?_ rfl)).1
    simp only [Module.parts, List.mem_append]
    exact .inl (.inl (.inr (List.mem_map_of_mem hg)))
  · rw [hcourse.facts hkm] at hq
    rw [hcourse.identity hkm]
    exact hcourse.sane.homely.defined k q hq

/-! ## An example -/

/-- A revision of a module that includes a submodule. -/
def revisedSource (revision : String) : ParsedSource where
  label := "a@" ++ revision ++ ".yang"
  root := .ok {
    keyword := .word .moduleWord
    argument := some "a"
    children := [
      { keyword := .word .namespaceWord, argument := some "urn:a" },
      { keyword := .word .prefixWord, argument := some "a" },
      { keyword := .word .includeWord, argument := some "a-sub" },
      { keyword := .word .revision, argument := some revision },
      { keyword := .word .container, argument := some "top" }] }

/-- The submodule, with a container and a grouping. -/
def sharedSource : ParsedSource where
  label := "a-sub.yang"
  root := .ok {
    keyword := .word .submodule
    argument := some "a-sub"
    children := [
      { keyword := .word .belongsTo, argument := some "a"
        children := [{ keyword := .word .prefixWord, argument := some "a" }] },
      { keyword := .word .grouping, argument := some "g"
        children := [{ keyword := .word .leaf, argument := some "y" }] },
      { keyword := .word .container, argument := some "from-sub" }] }

/-- Another module, which merges the grouping into the latest revision. -/
def foreignSource : ParsedSource where
  label := "b.yang"
  root := .ok {
    keyword := .word .moduleWord
    argument := some "b"
    children := [
      { keyword := .word .namespaceWord, argument := some "urn:b" },
      { keyword := .word .prefixWord, argument := some "b" },
      { keyword := .word .importWord, argument := some "a"
        children := [{ keyword := .word .prefixWord, argument := some "a" }] },
      { keyword := .word .augment, argument := some "/a:top"
        children := [{ keyword := .word .uses, argument := some "a:g" }] }] }

/-- Both revisions have the container of the submodule, each as its own; what the other module merges
in is marked. -/
theorem buildSchema_namespaces_sharedSource : ∃ schema old latest n n' t,
    buildSchema [revisedSource "2017-05-16", revisedSource "2018-01-01", sharedSource, foreignSource] {} =
      .ok schema ∧ old ∈ schema.modules ∧ latest ∈ schema.modules ∧ old.identity ≠ latest.identity ∧
      n ∈ old.topLevel ∧ n.name.localName = "from-sub" ∧ n.name.owner = old.identity ∧
      n' ∈ latest.topLevel ∧ n'.name.localName = "from-sub" ∧ n'.name.owner = latest.identity ∧
      t ∈ Node.preorderAll latest.topLevel ∧ t.name.owner ≠ latest.identity ∧
      t.facts.augmenting = true := by
  have hcheck : ((buildSchema [revisedSource "2017-05-16", revisedSource "2018-01-01", sharedSource,
      foreignSource] {}).toOption.any fun schema => schema.modules.any fun old =>
        schema.modules.any fun latest => decide (old.identity ≠ latest.identity) &&
          (old.topLevel.any fun n => decide (n.name.localName = "from-sub")) &&
          (latest.topLevel.any fun n => decide (n.name.localName = "from-sub")) &&
          (Node.preorderAll latest.topLevel).any fun t => decide (t.name.owner ≠ latest.identity)) =
      true := by decide +kernel
  simp only [Option.any_eq_true, toOption_eq_some, List.any_eq_true, Bool.and_eq_true,
    decide_eq_true_eq] at hcheck
  obtain ⟨schema, hschema, old, hold, latest, hlatest, ⟨⟨hne, n, hn, hname⟩, n', hn', hname'⟩, t, ht,
    hforeign⟩ := hcheck
  obtain ⟨hownold, -⟩ := buildSchema_namespaces hschema hold
  obtain ⟨hownlatest, -, -, -, -, hmerged⟩ := buildSchema_namespaces hschema hlatest
  exact ⟨schema, old, latest, n, n', t, hschema, hold, hlatest, hne, hn, hname, hownold n hn, hn', hname',
    hownlatest n' hn', ht, hforeign, hmerged t ht hforeign⟩

end YangSchema
