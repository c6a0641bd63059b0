import YangSchema.Inference.Deviate
import YangSchema.Proofs.Inference.Bodies

/-!
# Deviations leave bodies alone

A deviation looks for its target below a module.  It changes what the target says, or takes it out of
the tree, and with it the shorthand cases that are left empty above it.  All of this stays below the
module, so the bodies of groupings and augmentations are the same when all deviations have been
applied, and also where one of them fails (`ends_applyDeviations`).
-/

namespace YangSchema

open Draft Edit

/-! ## What a deviation says of a node -/

/-- The node `n` with what deviations may change taken from `r`. -/
def NodeDraft.alteredTo (r n : NodeDraft) : NodeDraft :=
  { n with
    config := r.config
    facts := { n.facts with
      constraints := r.facts.constraints
      properties := r.facts.properties } }

/-- `r` differs from `n` only in what deviations may change. -/
def NodeDraft.Deviated (n r : NodeDraft) : Prop := r = r.alteredTo n

namespace DeviateProperty

variable {p : DeviateProperty} {n r : NodeDraft}

theorem ifAbsent_eq_ok {present : Bool} {changed : NodeDraft} :
    p.ifAbsent n present changed = .ok r ↔ present = false ∧ r = changed := by
  cases present with
  | true => exact iff_of_false (by rintro ⟨⟩) (by rintro ⟨⟨⟩, -⟩)
  | false => exact ⟨fun h => ⟨rfl, (Except.ok.inj h).symm⟩, fun h => by rw [h.2]; rfl⟩

theorem ifPresent_eq_ok {present : Bool} {changed : NodeDraft} :
    p.ifPresent n present changed = .ok r ↔ present = true ∧ r = changed := by
  cases present with
  | true => exact ⟨fun h => ⟨rfl, (Except.ok.inj h).symm⟩, fun h => by rw [h.2]; rfl⟩
  | false => exact iff_of_false (by rintro ⟨⟩) (by rintro ⟨⟨⟩, -⟩)

theorem deviated_of_add (h : p.add n = .ok r) : n.Deviated r := by
  unfold add at h
  cases p with
  | typeName v => cases h
  | _ =>
    obtain ⟨-, rfl⟩ := ifAbsent_eq_ok.1 h
    rfl

theorem deviated_of_replace (h : p.replace n = .ok r) : n.Deviated r := by
  unfold replace at h
  cases p with
  | must v => cases h
  | unique v => cases h
  | config v =>
    cases h
    rfl
  | maxElements v =>
    cases h
    rfl
  | _ =>
    obtain ⟨-, rfl⟩ := ifPresent_eq_ok.1 h
    rfl

theorem deviated_of_delete (h : p.delete n = .ok r) : n.Deviated r := by
  unfold delete at h
  cases p with
  | defaultValue v =>
    obtain ⟨-, rfl⟩ := ifPresent_eq_ok.1 h
    rfl
  | must v =>
    obtain ⟨-, rfl⟩ := ifPresent_eq_ok.1 h
    rfl
  | unique v =>
    obtain ⟨-, rfl⟩ := ifPresent_eq_ok.1 h
    rfl
  | units v =>
    obtain ⟨-, rfl⟩ := ifPresent_eq_ok.1 h
    rfl
  | _ => cases h

end DeviateProperty

namespace Draft

variable {d d₁ d₂ : Draft} {s : Site} {b : Owner} {c n : NodeId}

/-! ## Staying out of bodies -/

/-- The site is in no body. -/
def OutsideBodies (d : Draft) (s : Site) : Prop := ∀ b : Owner, ¬ d.Under s b.site

theorem outsideBodies_of_under {m : ModuleId} (h : d.Under s (.module m)) : d.OutsideBodies s := by
  intro b h'
  exact b.site_ne_module m (h'.root_unique h b.site_ne_node fun i hi => (by cases hi))

/-- The draft is sound, and all bodies are as they were. -/
structure SameBodies (d d₁ : Draft) : Prop where
  sound : d₁.Sound
  augments_size : d₁.augments.size = d.augments.size
  bodies : ∀ b : Owner, (∀ a, b = .augment a → a.index < d.augments.size) → SameBody b d d₁

namespace SameBodies

theorem refl (hd : d.Sound) : SameBodies d d := ⟨hd, rfl, fun b _ => .refl b d⟩

theorem trans (h : SameBodies d d₁) (h' : SameBodies d₁ d₂) : SameBodies d d₂ where
  sound := h'.sound
  augments_size := h'.augments_size.trans h.augments_size
  bodies b hb := (h.bodies b hb).trans (h'.bodies b fun a ha => h.augments_size ▸ hb a ha)

end SameBodies

/-! ## Altering a node -/

theorem mapNode_congr {f g : NodeDraft → NodeDraft} (h : f (d.node n) = g (d.node n)) :
    d.mapNode n f = d.mapNode n g := by
  have hslots : d.nodes.update n.index f = d.nodes.update n.index g := by
    refine congrArg Shelf.mk (Array.ext ?_ fun j hj₁ hj₂ => ?_)
    · simp
    · rw [Array.size_modify] at hj₁
      rw [Array.getElem_modify, Array.getElem_modify]
      split
      · next hij =>
        have hread : d.node n = d.nodes.slots[j].record := by
          subst hij
          simp [Draft.node, Shelf.read, Array.getElem?_eq_getElem hj₁]
        rw [← hread, h]
      · rfl
  unfold mapNode
  rw [hslots]

theorem harmless_alteredTo (r : NodeDraft) : Harmless r.alteredTo :=
  ⟨fun _ => rfl, fun _ => rfl, fun _ => rfl, fun _ => rfl, fun _ => rfl, fun _ => rfl,
    fun _ => rfl, fun _ => rfl⟩

/-- A node outside all bodies is altered, or refuses it. -/
theorem ends_alterNode (hd : d.Sound) (hn : d.OutsideBodies (.node n))
    {f : NodeDraft → Except Fault NodeDraft} (hf : ∀ n r, f n = .ok r → n.Deviated r) :
    Ends (alterNode n f) d
      (fun _ d' => SameBodies d d' ∧ ∀ i, (d'.node i).parent = (d.node i).parent)
      fun _ d' => SameBodies d d' := by
  unfold alterNode
  rw [ends_bind, ends_get, hd.unfrozen.nodes, ends_bind, ends_requireOpen, ends_bind]
  show Ends (liftM (f (d.node n))) d _ _
  rw [ends_liftM]
  cases hr : f (d.node n) with
  | error e => exact .refl hd
  | ok r =>
    show Ends (modify fun d => d.mapNode n fun _ => r) d _ _
    rw [ends_modify, mapNode_congr (f := fun _ => r) (g := r.alteredTo) (hf _ _ hr)]
    have hq := (harmless_alteredTo r).mapNode hd n
    exact ⟨⟨hq.sound, rfl, fun b hb => hq.sameBody (hn b) hb⟩, fun i => by
      rw [node_mapNode]
      split <;> rfl⟩

/-! ## Taking a node out -/

/-- The draft without the node `c` at the site `s`. -/
def detached (d : Draft) (s : Site) (c : NodeId) : Draft :=
  (d.mapChildren s (·.filter (· != c))).mapNode c fun r => { r with parent := none }

theorem childrenOf_detached (t : Site) :
    (d.detached s c).childrenOf t = (d.mapChildren s (·.filter (· != c))).childrenOf t := by
  unfold detached
  cases t with
  | node j =>
    show ((Draft.mapNode _ c _).node j).children = _
    rw [node_mapNode]
    split <;> rfl
  | _ => rfl

theorem mem_childrenOf_detached {t : Site} {x : NodeId} (hs : d.HasSite s) :
    x ∈ (d.detached s c).childrenOf t ↔ x ∈ d.childrenOf t ∧ (t = s → x ≠ c) := by
  rw [childrenOf_detached]
  by_cases ht : t = s
  · subst ht
    rw [childrenOf_mapChildren_self hs]
    simp
  · rw [childrenOf_mapChildren_of_ne (Ne.symm ht)]
    simp [ht]

theorem usesAt_detached (t : Site) : (d.detached s c).usesAt t = d.usesAt t := by
  refine Eq.trans ?_ (usesAt_mapChildren s t (·.filter (· != c)))
  unfold detached
  cases t with
  | node j =>
    show ((Draft.mapNode _ c _).node j).uses = _
    rw [node_mapNode]
    split <;> rfl
  | _ => rfl

theorem node_detached (hc : c.index < d.nodes.size) (j : NodeId) :
    (d.detached s c).node j = { d.node j with
      parent := if j = c then none else (d.node j).parent
      children := (d.detached s c).childrenOf (.node j) } := by
  rw [childrenOf_detached]
  unfold detached
  rw [node_mapNode, node_mapChildren]
  by_cases hj : j = c
  · subst hj
    rw [if_pos ⟨rfl, by rw [(sizes_mapChildren s _).1]; exact hc⟩, if_pos rfl]
  · rw [if_neg fun h => hj h.1.symm, if_neg hj]

theorem usesOf_detached (u : UsesId) : (d.detached s c).usesOf u = d.usesOf u := by
  show (d.mapChildren s _).uses.read u.index = _
  rw [(sizes_mapChildren s _).2.2.1]
  rfl

theorem Sound.detached (hd : d.Sound) (hc : (d.node c).parent = some s) : (d.detached s c).Sound where
  unfrozen := (hd.unfrozen.mapChildren s _).mapNode c _
  parent_iff t x := by
    rw [mem_childrenOf_detached (hd.hasSite_parent hc), node_detached (lt_of_parent hc), hd.parent_iff]
    show _ ↔ (if x = c then none else (d.node x).parent) = some t
    by_cases hx : x = c
    · subst hx
      rw [if_pos rfl, hc]
      simp [eq_comm]
    · rw [if_neg hx]
      simp [hx]
  uses_lt t u hu := by
    rw [usesAt_detached] at hu
    show u.index < (d.mapChildren s _).uses.size
    rw [(sizes_mapChildren s _).2.2.1]
    exact hd.uses_lt t u hu
  augment_lt u a ha := by
    rw [usesOf_detached] at ha
    show a.index < (d.mapChildren s _).augments.size
    rw [(sizes_mapChildren s _).2.2.2.1]
    exact hd.augment_lt u a ha
  wf := by
    refine Subrelation.wf (fun {y x} h => ?_) hd.wf
    cases x with
    | site t =>
      rw [contains_site, usesAt_detached] at h
      refine contains_site.2 (h.imp_left ?_)
      rintro ⟨x, hx, rfl⟩
      exact ⟨x, ((mem_childrenOf_detached (hd.hasSite_parent hc)).1 hx).1, rfl⟩
    | uses u =>
      rw [contains_uses, usesOf_detached] at h
      exact contains_uses.2 h

/-- The ways up from what stays were there before. -/
theorem under_of_detached (hc : c.index < d.nodes.size) {x t : Site}
    (h : (d.detached s c).Under x t) : d.Under x t := by
  induction h with
  | refl => exact .refl _
  | @up i p _ hp _ ih =>
    rw [node_detached hc] at hp
    replace hp : (if i = c then none else (d.node i).parent) = some p := hp
    split at hp
    · cases hp
    · exact .up hp ih

theorem sameBodies_detached (hd : d.Sound) (hc : (d.node c).parent = some s)
    (hout : d.OutsideBodies (.node c)) : SameBodies d (d.detached s c) := by
  have hlt := lt_of_parent hc
  have hs : ∀ b : Owner, ¬ d.Under s b.site := fun b h => hout b (.up hc h)
  have hchildren : ∀ t, t ≠ s → (d.detached s c).childrenOf t = d.childrenOf t := by
    intro t ht
    rw [childrenOf_detached, childrenOf_mapChildren_of_ne (Ne.symm ht)]
  refine ⟨hd.detached hc, ?_, fun b _ => ⟨?_, usesAt_detached _, fun i hi => ?_⟩⟩
  · show (d.mapChildren s _).augments.size = _
    rw [(sizes_mapChildren s _).2.2.2.1]
  · exact hchildren _ fun h => hs b (h ▸ .refl _)
  · have hic : i ≠ c := by
      rintro rfl
      exact hout b hi
    rw [node_detached hlt, if_neg hic, hchildren (.node i) fun h => hs b (h ▸ hi)]
    rfl

theorem ends_detachUpTo (fuel : Nat) {d : Draft} (hd : d.Sound) (c : NodeId)
    (hout : d.OutsideBodies (.node c)) :
    Ends (detachUpTo fuel c) d (fun _ d' => SameBodies d d') fun _ _ => False := by
  induction fuel generalizing d c with
  | zero => exact .refl hd
  | succ fuel ih =>
    rw [detachUpTo, ends_bind, ends_get]
    split
    next s hc =>
      have hs : d.OutsideBodies s := fun b h => hout b (.up hc h)
      rw [ends_bind, ends_editChildren hd.unfrozen, ends_bind,
        ends_editNode (hd.unfrozen.mapChildren s _)]
      have hsame := sameBodies_detached hd hc hout
      change Ends _ (d.detached s c) _ _
      split
      · next p =>
        rw [ends_bind, ends_get]
        dsimp only
        split
        · refine (ih hsame.sound p fun b h => hs b ?_).mono (fun _ _ h => hsame.trans h)
            fun _ _ h => h
          exact under_of_detached (lt_of_parent hc) h
        · exact hsame
      · exact hsame
    · exact .refl hd

/-! ## Deviations -/

theorem ends_deviateNode (l : List Deviate) {d : Draft} (hd : d.Sound)
    (hn : d.OutsideBodies (.node n)) :
    Ends (deviateNode n l) d (fun _ d' => SameBodies d d') fun _ d' => SameBodies d d' := by
  induction l generalizing d with
  | nil => exact .refl hd
  | cons v rest ih =>
    -- changes of properties, and the rest of the deviation after them
    have halter : ∀ change : DeviateProperty → NodeDraft → Except Fault NodeDraft,
        (∀ p n r, change p n = .ok r → n.Deviated r) →
        Ends (v.properties.forM fun p => alterNode n (change p)) d
          (fun _ d' => Ends (deviateNode n rest) d' (fun _ d' => SameBodies d d')
            fun _ d' => SameBodies d d') fun _ d' => SameBodies d d' := by
      intro change hchange
      refine (ends_forM (I := fun _ d' => SameBodies d d' ∧ d'.OutsideBodies (.node n))
        v.properties ⟨.refl hd, hn⟩ ?_).mono ?_ fun _ _ h => h
      · intro pre p post d₁ _ h
        refine (ends_alterNode h.1.sound h.2 (hchange p)).mono ?_ fun _ _ h' => h.1.trans h'
        rintro - d₂ ⟨h', hparent⟩
        refine ⟨h.1.trans h', fun b hb => h.2 b ?_⟩
        by_cases hlt : n.index < d₁.nodes.size
        · exact (h.1.sound.under_iff_of_parent (fun i _ => hparent i) (x := .node n) hlt).1 hb
        · generalize ht : b.site = t at hb
          cases hb with
          | refl => exact absurd ht (b.site_ne_node n)
          | up hp _ =>
            rw [hparent] at hp
            exact absurd (lt_of_parent hp) hlt
      · rintro - d₁ ⟨h, hout⟩
        exact (ih h.sound hout).mono (fun _ _ h' => h.trans h') fun _ _ h' => h.trans h'
    rw [deviateNode]
    cases v.kind with
    | notSupported =>
      simp only []
      rw [ends_bind]
      unfold detach
      rw [ends_bind, ends_get]
      exact (ends_detachUpTo _ hd n hn).mono (fun _ _ h => h) fun _ _ h => h.elim
    | add =>
      rw [ends_bind]
      exact halter DeviateProperty.add fun _ _ _ => DeviateProperty.deviated_of_add
    | replace =>
      rw [ends_bind]
      exact halter DeviateProperty.replace fun _ _ _ => DeviateProperty.deviated_of_replace
    | delete =>
      rw [ends_bind]
      exact halter DeviateProperty.delete fun _ _ _ => DeviateProperty.deviated_of_delete

end Draft

theorem DeviationTask.ends_run (t : DeviationTask) (removed : List SchemaPath) {d : Draft}
    (hd : d.Sound) :
    Ends (t.run removed) d (fun _ d' => SameBodies d d') fun _ d' => SameBodies d d' := by
  unfold run
  rw [ends_bind, ends_get]
  split
  · split
    · exact .refl hd
    · exact .refl hd
  · next n hn =>
    obtain ⟨q, m, -, -, hdesc⟩ := findDataNode_eq_some.1 hn
    rw [ends_bind]
    refine (ends_deviateNode _ hd (outsideBodies_of_under (findDescendant_under hd hdesc))).mono ?_
      fun _ _ h => h
    rintro (_ | _) d' h
    · exact h
    · exact h

/-- Whether the deviations can be applied or not, no body changes. -/
theorem ends_applyDeviations (tasks : List DeviationTask) {d : Draft} (hd : d.Sound) :
    Ends (applyDeviations tasks) d (fun _ d' => SameBodies d d') fun _ d' => SameBodies d d' := by
  unfold applyDeviations
  rw [ends_discard]
  refine ends_foldlM (I := fun _ _ d' => SameBodies d d') _ _ (.refl hd) ?_
  intro pre t post removed d₁ _ h
  rw [ends_located]
  exact (t.ends_run removed h.sound).mono (fun _ _ h' => h.trans h') fun _ _ h' => h.trans h'

end YangSchema
