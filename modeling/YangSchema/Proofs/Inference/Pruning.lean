import YangSchema.Proofs.Draft.References
import YangSchema.Proofs.Draft.Regular
import YangSchema.Proofs.Faults
import YangSchema.Proofs.Inference.Deviations

/-!
# Deviations only take away

Deviations change what nodes say of their properties, and take nodes out of the tree below a module.
Of a definition they change nothing else, and they add none (`Pruned`).  A shorthand case that loses
its last child is taken out, too.
-/

namespace YangSchema

open Draft Edit

/-! ## Nodes -/

/-- `r'` is `r` after deviations: only properties may have changed, children may be missing, and the
node may be out of the tree. -/
structure NodeDraft.Pruned (r r' : NodeDraft) : Prop where
  record : r' = { r'.alteredTo r with children := r'.children, parent := r'.parent }
  children : r'.children.Sublist r.children
  parent : r'.parent = r.parent ∨ r'.parent = none

namespace NodeDraft.Pruned

variable {r r' r'' : NodeDraft}

theorem refl (r : NodeDraft) : r.Pruned r := ⟨rfl, .refl _, .inl rfl⟩

theorem trans (h : r.Pruned r') (h' : r'.Pruned r'') : r.Pruned r'' where
  record := by
    have hr := h'.record
    rw [h.record] at hr
    exact hr
  children := h'.children.trans h.children
  parent := by
    rcases h'.parent with hp | hp
    · rw [hp]
      exact h.parent
    · exact .inr hp

theorem kind (h : r.Pruned r') : r'.kind = r.kind := by rw [h.record]; rfl

theorem of_deviated (h : r.Deviated r') (hc : r'.children = r.children) (hp : r'.parent = r.parent) :
    r.Pruned r' := by
  refine ⟨?_, by rw [hc], .inl hp⟩
  rw [hc, hp]
  exact h

end NodeDraft.Pruned

/-! ## What nodes refuse -/

/-- A node refuses a change. -/
def Cause.IsRefusal (c : Cause) : Prop := ∃ problem, c = .malformedDeviation problem

theorem Cause.IsRefusal.of_effectiveModel {c : Cause} (h : c.IsRefusal) : c.Of .effectiveModel := by
  obtain ⟨problem, rfl⟩ := h
  exact malformedDeviation_of_effectiveModel problem

namespace DeviateProperty

variable (p : DeviateProperty) (n : NodeDraft)

theorem failsOnly_refused (problem : DeviationProblem) :
    FailsOnly Cause.IsRefusal (refused problem) :=
  .error ⟨problem, rfl⟩

theorem failsOnly_ifAbsent (present : Bool) (changed : NodeDraft) :
    FailsOnly Cause.IsRefusal (p.ifAbsent n present changed) := by
  unfold ifAbsent
  split
  · exact failsOnly_refused _
  · exact .ok _

theorem failsOnly_ifPresent (present : Bool) (changed : NodeDraft) :
    FailsOnly Cause.IsRefusal (p.ifPresent n present changed) := by
  unfold ifPresent
  split
  · exact .ok _
  · exact failsOnly_refused _

theorem failsOnly_add : FailsOnly Cause.IsRefusal (p.add n) := by
  cases p with
  | typeName v => exact failsOnly_refused _
  | _ => exact failsOnly_ifAbsent _ _ _ _

theorem failsOnly_replace : FailsOnly Cause.IsRefusal (p.replace n) := by
  cases p with
  | config v => exact .ok _
  | maxElements v => exact .ok _
  | must v => exact failsOnly_refused _
  | unique v => exact failsOnly_refused _
  | _ => exact failsOnly_ifPresent _ _ _ _

theorem failsOnly_delete : FailsOnly Cause.IsRefusal (p.delete n) := by
  cases p with
  | defaultValue v => exact failsOnly_ifPresent _ _ _ _
  | must v => exact failsOnly_ifPresent _ _ _ _
  | unique v => exact failsOnly_ifPresent _ _ _ _
  | units v => exact failsOnly_ifPresent _ _ _ _
  | _ => exact failsOnly_refused _

end DeviateProperty

namespace Draft

variable {d d₁ d₂ : Draft} {s : Site} {c n : NodeId} {m : ModuleId}

/-! ## Drafts -/

/-- Shorthand cases stand under choices, as far as they are below modules. -/
def Tiered (d : Draft) : Prop :=
  ∀ (m : ModuleId) (y : Site), d.Under y (.module m) → d.isChoice y = false →
    ∀ c ∈ d.childrenOf y, (d.node c).kind ≠ .caseNode true

/-- `d₁` is `d` with some nodes taken out and some properties changed. -/
structure Trimmed (d d₁ : Draft) : Prop where
  sound : d₁.Sound
  nodes_size : d₁.nodes.size = d.nodes.size
  modules_size : d₁.modules.size = d.modules.size
  groupings : d₁.groupings = d.groupings
  uses : d₁.uses = d.uses
  augments : d₁.augments = d.augments
  node : ∀ i, (d.node i).Pruned (d₁.node i)
  module : ∀ m, ∃ children, children.Sublist (d.module m).children ∧
    d₁.module m = { d.module m with children }

/-- `d₁` is `d` after deviations. -/
structure Pruned (d d₁ : Draft) : Prop extends Trimmed d d₁ where
  /-- A shorthand case that is left empty is taken out. -/
  emptied : d.Tiered → ∀ i, (d.node i).kind = .caseNode true → d₁.childrenOf (.node i) = [] →
    d.childrenOf (.node i) = [] ∨ (d₁.node i).parent = none

namespace Trimmed

theorem refl (hd : d.Sound) : Trimmed d d where
  sound := hd
  nodes_size := rfl
  modules_size := rfl
  groupings := rfl
  uses := rfl
  augments := rfl
  node _ := .refl _
  module _ := ⟨_, .refl _, rfl⟩

theorem children (h : Trimmed d d₁) (s : Site) : (d₁.childrenOf s).Sublist (d.childrenOf s) := by
  cases s with
  | module m =>
    obtain ⟨children, hsub, hm⟩ := h.module m
    show (d₁.module m).children.Sublist _
    rw [hm]
    exact hsub
  | node i => exact (h.node i).children
  | grouping g =>
    show (d₁.groupings.read _).children.Sublist _
    rw [h.groupings]
    exact .refl _
  | augment a =>
    show (d₁.augments.read _).children.Sublist _
    rw [h.augments]
    exact .refl _

theorem grouping_eq (h : Trimmed d d₁) (g : GroupingId) : d₁.grouping g = d.grouping g := by
  unfold Draft.grouping
  rw [h.groupings]

theorem augment_eq (h : Trimmed d d₁) (a : AugmentId) : d₁.augment a = d.augment a := by
  unfold Draft.augment
  rw [h.augments]

theorem usesOf_eq (h : Trimmed d d₁) (u : UsesId) : d₁.usesOf u = d.usesOf u := by
  unfold Draft.usesOf
  rw [h.uses]

/-- But for children every record lists what it listed before. -/
theorem lists (h : Trimmed d d₁) (s : Site) : d₁.usesAt s = d.usesAt s ∧
    d₁.groupingsAt s = d.groupingsAt s ∧ d₁.augmentsAt s = d.augmentsAt s := by
  cases s with
  | module m =>
    obtain ⟨children, -, hm⟩ := h.module m
    simp only [Draft.usesAt, groupingsAt, augmentsAt, hm, and_self]
  | node i =>
    have hrecord := (h.node i).record
    simp only [Draft.usesAt, groupingsAt, augmentsAt]
    rw [hrecord]
    exact ⟨rfl, rfl, rfl⟩
  | grouping g => simp only [Draft.usesAt, groupingsAt, augmentsAt, h.grouping_eq, and_self]
  | augment a => simp only [Draft.usesAt, groupingsAt, augmentsAt, h.augment_eq, and_self]

/-- The ways up from what stays were there before. -/
theorem under (h : Trimmed d d₁) {x y : Site} (hxy : d₁.Under x y) : d.Under x y := by
  induction hxy with
  | refl => exact .refl _
  | @up i p _ hp _ ih =>
    rcases (h.node i).parent with hpar | hpar
    · exact .up (hpar ▸ hp) ih
    · rw [hpar] at hp
      cases hp

theorem pathOf (h : Trimmed d d₁) (s : Site) : d₁.pathOf s = d.pathOf s := by
  cases s with
  | module => rfl
  | node i =>
    show (d₁.node i).path = _
    rw [(h.node i).record]
    rfl
  | grouping g => exact congrArg (fun r : GroupingDraft => r.facts.path) (h.grouping_eq g)
  | augment a => exact congrArg (fun r : AugmentDraft => r.facts.target) (h.augment_eq a)

theorem isChoice (h : Trimmed d d₁) (s : Site) : d₁.isChoice s = d.isChoice s := by
  cases s with
  | node i =>
    show (d₁.node i).kind.isChoice = _
    rw [(h.node i).kind]
    rfl
  | _ => rfl

theorem tiered (h : Trimmed d d₁) (ht : d.Tiered) : d₁.Tiered := by
  intro m y hy hch c hc
  rw [(h.node c).kind]
  exact ht m y (h.under hy) (h.isChoice y ▸ hch) c ((h.children y).subset hc)

theorem trans (h : Trimmed d d₁) (h' : Trimmed d₁ d₂) : Trimmed d d₂ where
  sound := h'.sound
  nodes_size := h'.nodes_size.trans h.nodes_size
  modules_size := h'.modules_size.trans h.modules_size
  groupings := h'.groupings.trans h.groupings
  uses := h'.uses.trans h.uses
  augments := h'.augments.trans h.augments
  node i := (h.node i).trans (h'.node i)
  module m := by
    obtain ⟨children, hsub, hm⟩ := h.module m
    obtain ⟨children', hsub', hm'⟩ := h'.module m
    rw [hm] at hsub' hm'
    exact ⟨children', hsub'.trans hsub, hm'⟩

end Trimmed

namespace Pruned

theorem refl (hd : d.Sound) : Pruned d d := ⟨.refl hd, fun _ _ _ h => .inl h⟩

theorem trans (h : Pruned d d₁) (h' : Pruned d₁ d₂) : Pruned d d₂ where
  toTrimmed := h.toTrimmed.trans h'.toTrimmed
  emptied ht i hk hnone := by
    rcases h'.emptied (h.tiered ht) i ((h.node i).kind.trans hk) hnone with hnone | hparent
    · refine (h.emptied ht i hk hnone).imp_right fun hparent => ?_
      rcases (h'.node i).parent with hp | hp
      · rw [hp, hparent]
      · exact hp
    · exact .inr hparent

end Pruned

/-! ## Altering a node -/

theorem pruned_mapNode (hd : d.Sound) {r : NodeDraft} (hr : (d.node n).Deviated r) :
    Pruned d (d.mapNode n fun _ => r) := by
  rw [mapNode_congr (f := fun _ => r) (g := r.alteredTo) hr]
  have hq := (harmless_alteredTo r).mapNode hd n
  have hnode : ∀ i, (d.node i).Pruned ((d.mapNode n r.alteredTo).node i) := by
    intro i
    rw [node_mapNode]
    split
    · exact .of_deviated rfl rfl rfl
    · exact .refl _
  exact {
    sound := hq.sound
    nodes_size := Shelf.size_update _ _ _
    modules_size := rfl
    groupings := rfl
    uses := rfl
    augments := rfl
    node := hnode
    module := fun m => ⟨_, .refl _, rfl⟩
    emptied := fun _ i _ hnone => by
      refine .inl (Eq.trans ?_ hnone)
      show _ = ((d.mapNode n r.alteredTo).node i).children
      rw [node_mapNode]
      split <;> rfl }

theorem endsPruned_alterNode (hd : d.Sound) {f : NodeDraft → Except Fault NodeDraft}
    (hf : ∀ n r, f n = .ok r → n.Deviated r) (hfails : ∀ n, FailsOnly Cause.IsRefusal (f n)) :
    Ends (alterNode n f) d (fun _ d' => Pruned d d') fun f _ => f.cause.IsRefusal := by
  unfold alterNode
  rw [ends_bind, ends_get, hd.unfrozen.nodes, ends_bind, ends_requireOpen, ends_bind]
  show Ends (liftM (f (d.node n))) d _ _
  rw [ends_liftM]
  cases hr : f (d.node n) with
  | error e => exact hfails _ e hr
  | ok r =>
    show Ends (modify fun d => d.mapNode n fun _ => r) d _ _
    rw [ends_modify]
    exact pruned_mapNode hd (hf _ _ hr)

/-! ## Taking a node out -/

theorem children_detached_sublist (hs : d.HasSite s) (t : Site) :
    ((d.detached s c).childrenOf t).Sublist (d.childrenOf t) := by
  rw [childrenOf_detached]
  by_cases ht : t = s
  · rw [ht, childrenOf_mapChildren_self hs]
    exact List.filter_sublist
  · rw [childrenOf_mapChildren_of_ne (Ne.symm ht)]

theorem trimmed_detached (hd : d.Sound) (hc : (d.node c).parent = some s)
    (hout : d.OutsideBodies (.node c)) : Trimmed d (d.detached s c) := by
  have hlt := lt_of_parent hc
  have hsub := children_detached_sublist (c := c) (hd.hasSite_parent hc)
  have hnode : ∀ i, (d.node i).Pruned ((d.detached s c).node i) := by
    intro i
    refine ⟨?_, hsub (.node i), ?_⟩
    · rw [node_detached hlt]
      rfl
    · rw [node_detached hlt]
      by_cases hi : i = c
      · exact .inr (if_pos hi)
      · exact .inl (if_neg hi)
  have hmodule : ∀ i, ∃ children, children.Sublist (d.module i).children ∧
      (d.detached s c).module i = { d.module i with children } := by
    refine fun i => ⟨_, hsub (.module i), ?_⟩
    rw [childrenOf_detached]
    exact module_mapChildren s (·.filter (· != c)) i
  have hsize : (d.detached s c).nodes.size = d.nodes.size :=
    (Shelf.size_update _ _ _).trans (sizes_mapChildren s _).1
  have hmodules : (d.detached s c).modules.size = d.modules.size := (sizes_mapChildren s _).2.2.2.2
  -- the site is no body, so the other definitions are not touched
  cases s with
  | grouping g => exact absurd (.up hc (.refl _)) (hout (.grouping g))
  | augment a => exact absurd (.up hc (.refl _)) (hout (.augment a))
  | module m => exact ⟨hd.detached hc, hsize, hmodules, rfl, rfl, rfl, hnode, hmodule⟩
  | node p => exact ⟨hd.detached hc, hsize, hmodules, rfl, rfl, rfl, hnode, hmodule⟩

theorem endsTrimmed_detachUpTo (fuel : Nat) {d : Draft} (hd : d.Sound) (c : NodeId)
    (hout : d.OutsideBodies (.node c)) :
    Ends (detachUpTo fuel c) d (fun _ d' => Trimmed d d') fun _ _ => False := by
  induction fuel generalizing d c with
  | zero => exact .refl hd
  | succ fuel ih =>
    rw [detachUpTo, ends_bind, ends_get]
    split
    next s hs =>
      rw [ends_bind, ends_editChildren hd.unfrozen, ends_bind,
        ends_editNode (hd.unfrozen.mapChildren s _)]
      have htrim := trimmed_detached hd hs hout
      change Ends _ (d.detached s c) _ _
      split
      · next p =>
        rw [ends_bind, ends_get]
        dsimp only
        split
        · refine (ih htrim.sound p fun b h => hout b ?_).mono (fun _ _ h => htrim.trans h) fun _ _ h => h
          exact .up hs (htrim.under h)
        · exact htrim
      · exact htrim
    · exact .refl hd

theorem Under.of_parent {t : Site} (h : d.Under (.node c) t) (hc : (d.node c).parent = some s)
    (ht : t ≠ .node c) : d.Under s t := by
  cases h with
  | refl => exact absurd rfl ht
  | up hp h =>
    rw [hc] at hp
    cases hp
    exact h

/-- Under what is no shorthand case a node is taken out alone. -/
theorem ends_detachUpTo_succ (fuel : Nat) (hd : d.Sound) (hs : (d.node c).parent = some s)
    (hk : ∀ p, s = .node p → (d.node p).kind ≠ .caseNode true) :
    Ends (detachUpTo (fuel + 1) c) d (fun _ d' => d' = d.detached s c) fun _ _ => False := by
  have hlt := lt_of_parent hs
  rw [detachUpTo, ends_bind, ends_get, hs]
  dsimp only
  rw [ends_bind, ends_editChildren hd.unfrozen, ends_bind,
    ends_editNode (hd.unfrozen.mapChildren s _)]
  change Ends _ (d.detached s c) _ _
  cases s with
  | node p =>
    dsimp only
    rw [ends_bind, ends_get]
    rw [if_neg]
    · rfl
    · intro hempty
      have hkind := NodeKind.isShorthandCase_iff.1 (Bool.and_eq_true_iff.1 hempty).1
      rw [node_detached hlt] at hkind
      exact hk p rfl hkind
  | _ => rfl

/-- Lists of other nodes than the parent are as they were. -/
theorem childrenOf_detached_of_ne {t : Site} (ht : t ≠ s) :
    (d.detached s c).childrenOf t = d.childrenOf t := by
  rw [childrenOf_detached, childrenOf_mapChildren_of_ne (Ne.symm ht)]

theorem kind_ne_of_isChoice {q : NodeId} (h : d.isChoice (.node q) = true) :
    (d.node q).kind ≠ .caseNode true := by
  intro hq
  have hch : (d.node q).kind.isChoice = true := h
  rw [hq] at hch
  cases hch

/-- A shorthand case below a module stands under a choice. -/
theorem Tiered.isChoice_of_parent (ht : d.Tiered) (hd : d.Sound) {p : NodeId} {t : Site}
    (hp : (d.node p).kind = .caseNode true) (htp : (d.node p).parent = some t)
    (hu : d.Under (.node p) (.module m)) : d.isChoice t = true := by
  by_contra hch
  have htm := hu.of_parent htp (by simp)
  exact ht m t htm (Bool.not_eq_true _ ▸ hch) p ((hd.parent_iff t p).2 htp) hp

/-- No shorthand case is left empty that was not, unless it stands nowhere any more. -/
def LeavesNoneEmpty (d d' : Draft) : Prop :=
  ∀ i, (d.node i).kind = .caseNode true → d'.childrenOf (.node i) = [] →
    d.childrenOf (.node i) = [] ∨ (d'.node i).parent = none

/-- The shorthand case `p`, which the node `c` was taken out of, is taken out next. -/
theorem ends_detachUpTo_wrapper (fuel : Nat) (ht : d.Tiered) (hd : d.Sound) {p : NodeId}
    (hs : (d.node c).parent = some (.node p)) (hp : (d.node p).kind = .caseNode true)
    (hc : d.Under (.node c) (.module m)) :
    Ends (detachUpTo (fuel + 1) p) (d.detached (.node p) c) (fun _ d' => d.LeavesNoneEmpty d')
      fun _ _ => False := by
  have htrim := trimmed_detached hd hs (outsideBodies_of_under hc)
  have hpc : p ≠ c := fun h => hd.not_under_child hs (h ▸ .refl _)
  have hparent : ((d.detached (.node p) c).node p).parent = (d.node p).parent := by
    rw [node_detached (lt_of_parent hs), if_neg hpc]
  cases htp : (d.node p).parent with
  | none =>
    rw [detachUpTo, ends_bind, ends_get, hparent, htp]
    intro i _ hnone
    by_cases hi : i = p
    · rw [hi, hparent]
      exact .inr htp
    · rw [childrenOf_detached_of_ne (by simpa using hi)] at hnone
      exact .inl hnone
  | some t =>
    have hchoice := ht.isChoice_of_parent hd hp htp (hc.of_parent hs (by simp))
    refine (ends_detachUpTo_succ fuel htrim.sound (hparent.trans htp) ?_).mono ?_ fun _ _ h => h
    · rintro q rfl
      rw [(htrim.node q).kind]
      exact kind_ne_of_isChoice hchoice
    · rintro - d' rfl i hi hnone
      by_cases hip : i = p
      · refine .inr ?_
        rw [node_detached (htrim.nodes_size ▸ lt_of_parent htp), if_pos hip]
      · refine .inl ?_
        have hit : Site.node i ≠ t := by
          rintro rfl
          exact kind_ne_of_isChoice hchoice hi
        rwa [childrenOf_detached_of_ne hit, childrenOf_detached_of_ne (by simpa using hip)] at hnone

/-- What is left empty when a node is taken out is its parent, and that is taken out next; a shorthand
case stands in no other, so there are never more than two steps. -/
theorem ends_detachUpTo_leavesNoneEmpty (fuel : Nat) (ht : d.Tiered) (hd : d.Sound)
    (hc : d.Under (.node c) (.module m)) :
    Ends (detachUpTo (fuel + 2) c) d (fun _ d' => d.LeavesNoneEmpty d') fun _ _ => False := by
  cases hs : (d.node c).parent with
  | none =>
    rw [detachUpTo, ends_bind, ends_get, hs]
    exact fun i _ hnone => .inl hnone
  | some s =>
  by_cases hk : ∀ p, s = .node p → (d.node p).kind ≠ .caseNode true
  · refine (ends_detachUpTo_succ (fuel + 1) hd hs hk).mono ?_ fun _ _ h => h
    rintro - d' rfl i hi hnone
    exact .inl (childrenOf_detached_of_ne (fun h => hk i h.symm hi) ▸ hnone)
  obtain ⟨p, rfl, hp⟩ : ∃ p, s = .node p ∧ (d.node p).kind = .caseNode true := by
    simpa using hk
  have htrim := trimmed_detached hd hs (outsideBodies_of_under hc)
  rw [detachUpTo, ends_bind, ends_get, hs]
  dsimp only
  rw [ends_bind, ends_editChildren hd.unfrozen, ends_bind,
    ends_editNode (hd.unfrozen.mapChildren (.node p) _)]
  change Ends _ (d.detached (.node p) c) _ _
  rw [ends_bind, ends_get]
  split
  next => exact ends_detachUpTo_wrapper fuel ht hd hs hp hc
  next hempty =>
    intro i hi hnone
    by_cases hip : i = p
    · subst hip
      refine absurd ?_ hempty
      have hnone' : ((d.detached (.node i) c).node i).children = [] := hnone
      rw [(htrim.node i).kind, hi, hnone']
      rfl
    · rw [childrenOf_detached_of_ne (by simpa using hip)] at hnone
      exact .inl hnone

theorem endsPruned_detachUpTo (fuel : Nat) (hd : d.Sound) (hc : d.Under (.node c) (.module m)) :
    Ends (detachUpTo (fuel + 2) c) d (fun _ d' => Pruned d d') fun _ _ => False := by
  have htrims := endsTrimmed_detachUpTo (fuel + 2) hd c (outsideBodies_of_under hc)
  by_cases ht : d.Tiered
  · exact (htrims.and (ends_detachUpTo_leavesNoneEmpty fuel ht hd hc)).mono (fun _ _ h => ⟨h.1, fun _ => h.2⟩)
      fun _ _ h => h.1
  · exact htrims.mono (fun _ _ h => ⟨h, fun ht' => absurd ht' ht⟩) fun _ _ h => h

/-! ## Deviations -/

/-- Where all nodes keep their parents, the ways up stay. -/
theorem Under.of_parent_eq {x t : Site} (h : d.Under x t)
    (hparent : ∀ i, i.index < d.nodes.size → (d₁.node i).parent = (d.node i).parent) :
    d₁.Under x t := by
  induction h with
  | refl => exact .refl _
  | up hp _ ih => exact .up ((hparent _ (lt_of_parent hp)).trans hp) ih

theorem endsPruned_deviateNode (l : List Deviate) {d : Draft} (hd : d.Sound)
    (hn : d.Under (.node n) (.module m)) :
    Ends (deviateNode n l) d (fun _ d' => Pruned d d') fun f _ => f.cause.IsRefusal := by
  induction l generalizing d with
  | nil => exact .refl hd
  | cons v rest ih =>
    have halter : ∀ change : DeviateProperty → NodeDraft → Except Fault NodeDraft,
        (∀ p n r, change p n = .ok r → n.Deviated r) →
        (∀ p n, FailsOnly Cause.IsRefusal (change p n)) →
        Ends (v.properties.forM fun p => alterNode n (change p)) d
          (fun _ d' => Ends (deviateNode n rest) d' (fun _ d' => Pruned d d')
            fun f _ => f.cause.IsRefusal) fun f _ => f.cause.IsRefusal := by
      intro change hchange hfails
      refine (ends_forM (I := fun _ d' => Pruned d d' ∧ d'.Under (.node n) (.module m))
        v.properties ⟨.refl hd, hn⟩ ?_).mono ?_ fun _ _ h => h
      · intro pre p post d₁ _ h
        have hsame := ends_alterNode h.1.sound (outsideBodies_of_under h.2) (hchange p)
        refine ((endsPruned_alterNode h.1.sound (hchange p) (hfails p)).and hsame).mono ?_
          fun _ _ h' => h'.1
        rintro - d₂ ⟨h', -, hparent⟩
        exact ⟨h.1.trans h', h.2.of_parent_eq fun i _ => hparent i⟩
      · rintro - d₁ ⟨h, hunder⟩
        exact (ih h.sound hunder).mono (fun _ _ h' => h.trans h') fun _ _ h' => h'
    rw [deviateNode]
    cases v.kind with
    | notSupported =>
      dsimp only
      rw [ends_bind]
      unfold detach
      rw [ends_bind, ends_get]
      -- the target is there, so the draft has a node
      obtain ⟨fuel, hfuel⟩ : ∃ fuel, d.nodes.size = fuel + 1 := by
        obtain ⟨p, hp⟩ : ∃ p, (d.node n).parent = some p := by
          cases hn with
          | up hp _ => exact ⟨_, hp⟩
        exact Nat.exists_eq_succ_of_ne_zero (Nat.ne_zero_of_lt (lt_of_parent hp))
      rw [hfuel]
      exact (endsPruned_detachUpTo fuel hd hn).mono (fun _ _ h => h) fun _ _ h => h.elim
    | add =>
      rw [ends_bind]
      exact halter _ (fun _ _ _ => DeviateProperty.deviated_of_add) DeviateProperty.failsOnly_add
    | replace =>
      rw [ends_bind]
      exact halter _ (fun _ _ _ => DeviateProperty.deviated_of_replace)
        DeviateProperty.failsOnly_replace
    | delete =>
      rw [ends_bind]
      exact halter _ (fun _ _ _ => DeviateProperty.deviated_of_delete)
        DeviateProperty.failsOnly_delete

end Draft

theorem DeviationTask.endsPruned_run (t : DeviationTask) (removed : List SchemaPath) {d : Draft}
    (hd : d.Sound) :
    Ends (t.run removed) d (fun _ d' => Pruned d d') fun f _ => f.cause.Of .effectiveModel := by
  unfold run
  rw [ends_bind, ends_get]
  split
  · split
    · exact .refl hd
    · exact Cause.unresolved_of_effectiveModel _ _
  · next n hn =>
    obtain ⟨q, m, -, -, hdesc⟩ := findDataNode_eq_some.1 hn
    rw [ends_bind]
    refine (endsPruned_deviateNode _ hd (findDescendant_under hd hdesc)).mono ?_
      fun _ _ h => h.of_effectiveModel
    rintro (_ | _) d' h
    · exact h
    · exact h

/-- Deviations only take away; if one cannot be applied, that is no fault of the library. -/
theorem endsPruned_applyDeviations (tasks : List DeviationTask) {d : Draft} (hd : d.Sound) :
    Ends (applyDeviations tasks) d (fun _ d' => Pruned d d') fun f _ =>
      f.cause.Of .effectiveModel := by
  unfold applyDeviations
  rw [ends_discard]
  refine ends_foldlM (I := fun _ _ d' => Pruned d d') _ _ (.refl hd) ?_
  intro pre t post removed d₁ _ h
  rw [ends_located]
  exact (t.endsPruned_run removed h.sound).mono (fun _ _ h' => h.trans h') fun _ _ h' => h'

end YangSchema
