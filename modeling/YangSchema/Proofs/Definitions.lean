import YangSchema.Proofs.Building
import YangSchema.Proofs.Declaration.Alike
import YangSchema.Proofs.Inference.Addressing

/-!
# Deviations never reach a definition

The snapshots of groupings, uses and augmentations depend only on what stands in bodies, and there
everything stays as it is while deviations are applied (`SameDefinitions`).  So what a schema says apart
from its data nodes, rpcs and notifications is the same under every configuration
(`buildSchema_definitions`).
-/

namespace YangSchema

open Draft Edit Declare

/-- The module without its data nodes, rpcs and notifications. -/
def Module.definitions (m : Module) : Module :=
  { m with children := [], rpcs := [], notifications := [] }

namespace Draft

variable {d d₁ : Draft} {fuel : Nat}

/-! ## Drafts with the same definitions -/

/-- The drafts agree on all bodies, and what nodes in bodies are copies of stands in bodies. -/
structure SameDefinitions (d d₁ : Draft) : Prop where
  grouping : ∀ g, d₁.grouping g = d.grouping g
  usesOf : ∀ u, d₁.usesOf u = d.usesOf u
  augment : ∀ a, d₁.augment a = d.augment a
  inBody : ∀ s, d₁.InBody s ↔ d.InBody s
  node : ∀ i, d.InBody (.node i) → d₁.node i = d.node i
  config : ∀ i, d.InBody (.node i) → d₁.effectiveConfig i = d.effectiveConfig i
  children : ∀ s, d.InBody s → d₁.childrenOf s = d.childrenOf s
  child : ∀ s c, d.InBody s → c ∈ d.childrenOf s → d.InBody (.node c)
  origin : ∀ i o, d.InBody (.node i) → (d.node i).origin = some o → d.InBody (.node o)

namespace SameDefinitions

theorem symm (h : SameDefinitions d d₁) : SameDefinitions d₁ d where
  grouping g := (h.grouping g).symm
  usesOf u := (h.usesOf u).symm
  augment a := (h.augment a).symm
  inBody s := (h.inBody s).symm
  node i hi := (h.node i ((h.inBody _).1 hi)).symm
  config i hi := (h.config i ((h.inBody _).1 hi)).symm
  children s hs := (h.children s ((h.inBody _).1 hs)).symm
  child s c hs hc := by
    have hs' := (h.inBody _).1 hs
    exact (h.inBody _).2 (h.child s c hs' (h.children s hs' ▸ hc))
  origin i o hi ho := by
    have hi' := (h.inBody _).1 hi
    exact (h.inBody _).2 (h.origin i o hi' (h.node i hi' ▸ ho))

end SameDefinitions

theorem grouping_inBody (d : Draft) (g : GroupingId) : d.InBody (.grouping g) := ⟨.grouping g, .refl _⟩

theorem augment_inBody (d : Draft) (a : AugmentId) : d.InBody (.augment a) := ⟨.augment a, .refl _⟩

/-- What is frozen in bodies of one draft is frozen in the other one in the same way. -/
structure ShotsKept (d d₁ : Draft) (fuel : Nat) : Prop where
  node : ∀ i v, d.InBody (.node i) → d.NodeShot fuel i v → d₁.NodeShot fuel i v
  grouping : ∀ i v, d.GroupingShot fuel i v → d₁.GroupingShot fuel i v
  uses : ∀ i v, d.UsesShot fuel i v → d₁.UsesShot fuel i v
  augment : ∀ i v, d.AugmentShot fuel i v → d₁.AugmentShot fuel i v

namespace ShotsKept

variable (ih : ShotsKept d d₁ fuel) (h : SameDefinitions d d₁)
include ih h

theorem nodes {s : Site} (hs : d.InBody s) {vs : List Node}
    (hvs : List.Forall₂ (d.NodeShot fuel) (d.childrenOf s) vs) :
    List.Forall₂ (d₁.NodeShot fuel) (d.childrenOf s) vs :=
  ((List.forall₂_and_left _ _).2 ⟨fun c hc => h.child s c hs hc, hvs⟩).imp
    fun c v hc => ih.node c v hc.1 hc.2

theorem origin {i : NodeId} (hi : d.InBody (.node i)) {o : Option Node}
    (ho : Option.Rel (d.NodeShot fuel) (d.node i).origin o) :
    Option.Rel (d₁.NodeShot fuel) (d.node i).origin o := by
  cases horigin : (d.node i).origin with
  | none =>
    rw [horigin] at ho
    cases ho
    exact .none
  | some j =>
    rw [horigin] at ho
    cases ho with
    | some hj => exact .some (ih.node j _ (h.origin i j hi horigin) hj)

theorem succ : ShotsKept d d₁ (fuel + 1) where
  node i v hi := by
    rintro ⟨children, augmentations, hc, ha, hv⟩
    unfold NodeShot
    rw [h.node i hi]
    refine ⟨children, augmentations, ih.nodes h hi hc, ha.imp ih.augment, ?_⟩
    split at hv
    · next hk =>
      rw [if_pos hk]
      exact hv
    · next hk =>
      obtain ⟨origin, groupings, uses, ho, hg, hu, rfl⟩ := hv
      rw [if_neg hk]
      refine ⟨origin, groupings, uses, ih.origin h hi ho, hg.imp ih.grouping, hu.imp ih.uses, ?_⟩
      rw [h.config i hi]
  grouping i v := by
    rintro ⟨children, groupings, uses, hc, hg, hu, rfl⟩
    unfold GroupingShot
    rw [h.grouping]
    exact ⟨children, groupings, uses, ih.nodes h (d.grouping_inBody i) hc, hg.imp ih.grouping,
      hu.imp ih.uses, rfl⟩
  uses i v := by
    rintro ⟨augmentations, ha, rfl⟩
    unfold UsesShot
    rw [h.usesOf]
    exact ⟨augmentations, ha.imp ih.augment, rfl⟩
  augment i v := by
    rintro ⟨origin, children, uses, ho, hc, hu, rfl⟩
    unfold AugmentShot
    rw [h.augment]
    exact ⟨origin, children, uses, optionRel_imp ih.augment ho,
      ih.nodes h (d.augment_inBody i) hc, hu.imp ih.uses, rfl⟩

end ShotsKept

theorem SameDefinitions.shotsKept (h : SameDefinitions d d₁) (fuel : Nat) : ShotsKept d d₁ fuel := by
  induction fuel with
  | zero =>
    exact ⟨fun _ _ _ h => h.elim, fun _ _ h => h.elim, fun _ _ h => h.elim, fun _ _ h => h.elim⟩
  | succ fuel ih => exact ih.succ h

namespace SameDefinitions

variable (h : SameDefinitions d d₁)
include h

theorem groupingSnapshot {g : GroupingId} {v : Grouping} (hv : d.GroupingSnapshot g v) :
    d₁.GroupingSnapshot g v :=
  hv.imp fun fuel hv => (h.shotsKept fuel).grouping g v hv

theorem usesSnapshot {u : UsesId} {v : Uses} (hv : d.UsesSnapshot u v) : d₁.UsesSnapshot u v :=
  hv.imp fun fuel hv => (h.shotsKept fuel).uses u v hv

theorem augmentSnapshot {a : AugmentId} {v : Augmentation} (hv : d.AugmentSnapshot a v) :
    d₁.AugmentSnapshot a v :=
  hv.imp fun fuel hv => (h.shotsKept fuel).augment a v hv

end SameDefinitions

/-! ## Drafts after deviations -/

theorem not_inBody_module (d : Draft) (m : ModuleId) : ¬ d.InBody (.module m) := by
  rintro ⟨b, hb⟩
  exact b.site_ne_module m (hb.eq_of_root fun i hi => (by cases hi)).symm

/-- Nodes in bodies read the same above them. -/
theorem effectiveConfig_of_inBody (hsize : d₁.nodes.size = d.nodes.size)
    (hnode : ∀ i, d.InBody (.node i) → d₁.node i = d.node i) {i : NodeId} (hi : d.InBody (.node i)) :
    d₁.effectiveConfig i = d.effectiveConfig i := by
  have hup : ∀ fuel i, d.InBody (.node i) → d₁.lineageUpTo fuel i = d.lineageUpTo fuel i ∧
      ∀ j ∈ d.lineageUpTo fuel i, d.InBody (.node j) := by
    intro fuel
    induction fuel with
    | zero => exact fun i _ => ⟨rfl, fun j hj => by cases hj⟩
    | succ fuel ih =>
      intro i hi
      unfold lineageUpTo
      rw [hnode i hi]
      split
      · next p hp =>
        obtain ⟨b, hb⟩ := hi
        obtain ⟨heq, hall⟩ := ih p ⟨b, hb.of_parent hp (b.site_ne_node i)⟩
        rw [heq]
        exact ⟨rfl, List.forall_mem_cons.2 ⟨⟨b, hb⟩, hall⟩⟩
      · exact ⟨rfl, List.forall_mem_cons.2 ⟨hi, fun j hj => by cases hj⟩⟩
  obtain ⟨heq, hall⟩ := hup d.nodes.size i hi
  unfold effectiveConfig lineage
  rw [hsize, heq, List.map_congr_left fun j hj => hnode j (hall j hj)]

/-- Deviations leave all definitions the same. -/
theorem sameDefinitions_of_bodies (hd : d.Sound) (hsourced : d.Sourced) (htrimmed : Trimmed d d₁)
    (hbodies : SameBodies d d₁) : SameDefinitions d d₁ := by
  have hsame : ∀ (b : Owner) i, d.Under (.node i) b.site → SameBody b d d₁ := by
    intro b i hi
    refine hbodies.bodies b fun a ha => ?_
    subst ha
    exact hd.hasSite_above hi (lt_of_under hi (Owner.site_ne_node _))
  have hnode : ∀ i, d.InBody (.node i) → d₁.node i = d.node i := by
    rintro i ⟨b, hb⟩
    exact (hsame b i hb).nodes i hb
  refine {
    grouping := htrimmed.grouping_eq
    usesOf := htrimmed.usesOf_eq
    augment := htrimmed.augment_eq
    inBody := fun s => ⟨fun ⟨b, hb⟩ => ⟨b, htrimmed.under hb⟩, fun hs => ?_⟩
    node := hnode
    config := fun i hi => effectiveConfig_of_inBody htrimmed.nodes_size hnode hi
    children := fun s hs => ?_
    child := fun s c hs hc => hs.child hd hc
    origin := fun i o _ ho => hsourced i o ho }
  · obtain ⟨b, hb⟩ := hs
    cases s with
    | node i => exact ⟨b, (hsame b i hb).under hb⟩
    | module m => exact absurd ⟨b, hb⟩ (d.not_inBody_module m)
    | grouping g => exact d₁.grouping_inBody g
    | augment a => exact d₁.augment_inBody a
  · cases s with
    | node i => exact congrArg NodeDraft.children (hnode i hs)
    | module m => exact absurd hs (d.not_inBody_module m)
    | grouping g => exact congrArg GroupingDraft.children (htrimmed.grouping_eq g)
    | augment a => exact congrArg AugmentDraft.children (htrimmed.augment_eq a)

end Draft

/-! ## Builds -/

namespace Builds

variable {sources : List ParsedSource} {config c c' : BuildConfig} {modules modules' : List ModuleId}
  {w w' : Workspace} {schema schema' : Schema} {d d' : Draft}

/-- Two builds of the same sources declare the same, but for the deviations that take effect. -/
theorem alike (h : Builds sources c modules w schema) (h' : Builds sources c' modules' w' schema') :
    modules = modules' ∧ w.Alike w' := by
  obtain ⟨r, order, hr, hlink, hdeclared⟩ := h.declared
  obtain ⟨r', order', hr', hlink', hdeclared'⟩ := h'.declared
  obtain rfl : r = r' := Except.ok.inj (hr.symm.trans hr')
  obtain rfl : order = order' := Except.ok.inj (hlink.symm.trans hlink')
  have hagree : Agree (fun p q => p.1 = q.1 ∧ p.2.Alike q.2) ((declareModules r c order).run {})
      ((declareModules r c' order).run {}) := alike_declareModules r c c' order {} {} (.refl {})
  rw [hdeclared, hdeclared'] at hagree
  cases hagree with
  | ok h => exact h

namespace Course

variable (h : Course sources config modules w d d' schema)
include h

/-- What the inference comes to before any deviation is applied. -/
theorem sourced : d.Sourced := h.sane.pristine.sourced.strokes h.sane.sound h.strokes

theorem edited : EditedBy w.tasks.deviations d d' :=
  (ends_applyDeviations_edited w.tasks.deviations h.follows.sound).of_ok h.deviate

theorem sameDefinitions : SameDefinitions d d' :=
  sameDefinitions_of_bodies h.follows.sound h.sourced h.edited.toTrimmed
    ((ends_applyDeviations w.tasks.deviations h.follows.sound).of_ok h.deviate)

end Course

end Builds

/-- Modules that are frozen from drafts with the same definitions say the same but for their nodes. -/
theorem Draft.ModuleSnapshot.definitions_eq {d d₁ d₂ : Draft} {i : ModuleId} {m₁ m₂ : Module}
    (h₁ : SameDefinitions d d₁) (h₂ : SameDefinitions d d₂) (ht₁ : Trimmed d d₁) (ht₂ : Trimmed d d₂)
    (hm₁ : d₁.ModuleSnapshot i m₁) (hm₂ : d₂.ModuleSnapshot i m₂) :
    m₁.definitions = m₂.definitions := by
  obtain ⟨nodes₁, gs₁, as₁, us₁, -, hg₁, ha₁, hu₁, rfl⟩ := hm₁
  obtain ⟨nodes₂, gs₂, as₂, us₂, -, hg₂, ha₂, hu₂, rfl⟩ := hm₂
  obtain ⟨children₁, -, hi₁⟩ := ht₁.module i
  obtain ⟨children₂, -, hi₂⟩ := ht₂.module i
  rw [hi₁] at hg₁ ha₁ hu₁ ⊢
  rw [hi₂] at hg₂ ha₂ hu₂ ⊢
  obtain rfl : gs₁ = gs₂ := GroupingSnapshot.unique.forall₂
    (hg₁.imp fun _ _ hv => h₂.groupingSnapshot (h₁.symm.groupingSnapshot hv)) hg₂
  obtain rfl : as₁ = as₂ := AugmentSnapshot.unique.forall₂
    (ha₁.imp fun _ _ hv => h₂.augmentSnapshot (h₁.symm.augmentSnapshot hv)) ha₂
  obtain rfl : us₁ = us₂ := UsesSnapshot.unique.forall₂
    (hu₁.imp fun _ _ hv => h₂.usesSnapshot (h₁.symm.usesSnapshot hv)) hu₂
  rfl

/-- Under any two configurations the modules of the schema are the same but for their data nodes, rpcs
and notifications.  Deviations only edit nodes that they address and take out such nodes, with the
shorthand cases around them; no definition, no node in a body, and so nothing that a node was copied
from, is touched. -/
theorem buildSchema_definitions {sources : List ParsedSource} {c c' : BuildConfig}
    {schema schema' : Schema} (h : buildSchema sources c = .ok schema)
    (h' : buildSchema sources c' = .ok schema') :
    schema.modules.map Module.definitions = schema'.modules.map Module.definitions ∧
    ∃ modules w d d', Builds sources c modules w schema ∧
      (infer w.tasks).perform w.draft = (.ok ⟨⟩, d) ∧
      (applyDeviations w.tasks.deviations).perform d = (.ok ⟨⟩, d') ∧
      List.Forall₂ d'.ModuleSnapshot modules schema.modules ∧
      EditedBy w.tasks.deviations d d' ∧
      (∀ i, d.InBody (.node i) → d'.node i = d.node i) ∧
      ∀ i o, (d.node i).origin = some o → d'.node o = d.node o := by
  obtain ⟨modules, w, hb⟩ := exists_builds h
  obtain ⟨modules', w', hb'⟩ := exists_builds h'
  obtain ⟨rfl, halike⟩ := hb.alike hb'
  obtain ⟨d, d₁, hc⟩ := hb.exists_course
  obtain ⟨d', d₁', hc'⟩ := hb'.exists_course
  -- only the deviations differ
  have hinferred : (infer w.tasks).perform w.draft = (infer w'.tasks).perform w'.draft := by
    unfold infer
    rw [halike.draft, halike.uses, halike.augments]
  obtain rfl : d = d' := (Prod.mk.inj (hc.infer.symm.trans (hinferred.trans hc'.infer))).2
  have hsame := hc.sameDefinitions
  have hsame' := hc'.sameDefinitions
  refine ⟨?_, modules, w, d, d₁, hb, hc.infer, hc.deviate, hc.snapshots, hc.edited, hsame.node,
    fun i o ho => hsame.node o (hc.sourced i o ho)⟩
  have hdefinitions : List.Forall₂ (fun m m' => m.definitions = m'.definitions) schema.modules
      schema'.modules := forall₂_join hc.snapshots hc'.snapshots fun i _ m m' hm hm' =>
    hm.definitions_eq hsame hsame' hc.edited.toTrimmed hc'.edited.toTrimmed hm'
  exact List.forall₂_eq_eq_eq ▸ List.forall₂_map_left_iff.2 (List.forall₂_map_right_iff.2 hdefinitions)

/-- A module with a grouping of two leaves and a uses of it. -/
def groupedSource : ParsedSource where
  label := "m.yang"
  root := .ok {
    keyword := .word .moduleWord
    argument := some "m"
    children := [
      { keyword := .word .namespaceWord, argument := some "urn:m" },
      { keyword := .word .prefixWord, argument := some "m" },
      { keyword := .word .grouping, argument := some "g"
        children := [
          { keyword := .word .leaf, argument := some "x" },
          { keyword := .word .leaf, argument := some "y" }] },
      { keyword := .word .uses, argument := some "g" }] }

/-- A module that makes one of the copied leaves mandatory. -/
def demandingSource : ParsedSource where
  label := "n.yang"
  root := .ok {
    keyword := .word .moduleWord
    argument := some "n"
    children := [
      { keyword := .word .namespaceWord, argument := some "urn:n" },
      { keyword := .word .prefixWord, argument := some "n" },
      { keyword := .word .importWord, argument := some "m"
        children := [{ keyword := .word .prefixWord, argument := some "m" }] },
      { keyword := .word .deviation, argument := some "/m:y"
        children := [{ keyword := .word .deviate, argument := some "add"
                       children := [{ keyword := .word .mandatory, argument := some "true" }] }] }] }

/-- One of the copied leaves is mandatory; in the grouping it is as it is without deviations. -/
theorem buildSchema_definitions_groupedSource :
    ∃ schema schema', buildSchema [groupedSource, demandingSource] {} = .ok schema ∧
      buildSchema [groupedSource, demandingSource] .withoutDeviations = .ok schema' ∧
      (schema.modules.flatMap Module.topLevel).map (·.facts.constraints.mandatory) = [none, some true] ∧
      (schema'.modules.flatMap Module.topLevel).map (·.facts.constraints.mandatory) = [none, none] ∧
      schema.modules.map Module.definitions = schema'.modules.map Module.definitions := by
  have hcheck : ((buildSchema [groupedSource, demandingSource] {}).toOption.any fun schema =>
      decide ((schema.modules.flatMap Module.topLevel).map (·.facts.constraints.mandatory) =
        [none, some true])) = true := by decide +kernel
  have hcheck' : ((buildSchema [groupedSource, demandingSource] .withoutDeviations).toOption.any
      fun schema => decide ((schema.modules.flatMap Module.topLevel).map
        (·.facts.constraints.mandatory) = [none, none])) = true := by decide +kernel
  simp only [Option.any_eq_true, toOption_eq_some, decide_eq_true_eq] at hcheck hcheck'
  obtain ⟨schema, h, hnodes⟩ := hcheck
  obtain ⟨schema', h', hnodes'⟩ := hcheck'
  exact ⟨schema, schema', h, h', hnodes, hnodes', (buildSchema_definitions h h').1⟩

end YangSchema
