import YangSchema.Proofs.Inference.Pruning
import YangSchema.Proofs.Declaration.Pristine
import YangSchema.Proofs.Inference.Strokes

/-!
# What deviations address

A path addresses the nodes that it leads to from a module (`Draft.Addresses`).  Deviations change only
what nodes that they address say, and take only such nodes out of the tree, with the shorthand cases
that are left empty (`EditedAt`, `ends_applyDeviations_edited`).  What a node is a copy of stands in a
body (`Sourced`), and nothing in a body is addressed.
-/

namespace YangSchema

open Draft Edit Relation

namespace Draft

variable {S : Stage} {d d₁ d₂ : Draft} {b : Owner} {s t : Site} {c n : NodeId}

/-! ## Bodies that copies are taken from -/

/-- The site is in a body. -/
def InBody (d : Draft) (s : Site) : Prop := ∃ b : Owner, d.Under s b.site

theorem InBody.child (h : d.InBody s) (hd : d.Sound) (hc : c ∈ d.childrenOf s) : d.InBody (.node c) := by
  obtain ⟨b, hb⟩ := h
  exact ⟨b, hd.under_of_mem hb hc⟩

theorem InBody.lt {i : NodeId} (h : d.InBody (.node i)) : i.index < d.nodes.size := by
  obtain ⟨b, hb⟩ := h
  generalize hs : b.site = s at hb
  cases hb with
  | refl => exact absurd hs (b.site_ne_node i)
  | up hp => exact lt_of_parent hp

theorem InBody.of_parent (h : d.InBody s)
    (hparent : ∀ i, i.index < d.nodes.size → (d₁.node i).parent = (d.node i).parent) :
    d₁.InBody s := by
  obtain ⟨b, hb⟩ := h
  exact ⟨b, hb.of_parent_eq hparent⟩

theorem inBody_of_inside (hd : d.Sound) {x : Item} (h : d.Inside (.site b.site) x) :
    ∀ s, x = .site s → d.InBody s := by
  induction h with
  | refl =>
    rintro _ ⟨⟩
    exact ⟨b, .refl _⟩
  | @tail y x _ hx ih =>
    rintro s rfl
    cases y with
    | site t =>
      rcases contains_site.1 hx with ⟨c, hc, heq⟩ | ⟨u, -, heq⟩
      · cases heq
        exact (ih t rfl).child hd hc
      · cases heq
    | uses u =>
      obtain ⟨a, -, heq⟩ := contains_uses.1 hx
      cases heq
      exact ⟨.augment a, .refl _⟩

/-- What a node is a copy of stands in a body. -/
def Sourced (d : Draft) : Prop := ∀ i o, (d.node i).origin = some o → d.InBody (.node o)

theorem Pristine.sourced (h : d.Pristine) : d.Sourced := by
  intro i o ho
  rw [(h.nodes i).origin] at ho
  cases ho

theorem Sourced.plant (h : d.Sourced) (hplant : S.Plant d d₁) : d₁.Sourced := by
  obtain ⟨style, s, b, hd, hb, hs, himplanted⟩ := hplant
  have hparent : ∀ i, i.index < d.nodes.size → (d₁.node i).parent = (d.node i).parent := by
    intro i hi
    rw [himplanted.node i hi]
  intro i o ho
  rcases Nat.lt_or_ge i.index d.nodes.size with hlt | hge
  · rw [himplanted.node i hlt] at ho
    exact (h i o ho).of_parent hparent
  rcases Nat.lt_or_ge i.index d₁.nodes.size with hlt₁ | hge₁
  · rcases himplanted.copied i hge hlt₁ with hwrap | ⟨o', ho', hcopy⟩
    · rw [hwrap.origin] at ho
      cases ho
    · obtain rfl : o' = o := Option.some.inj (hcopy.origin.symm.trans ho)
      exact (inBody_of_inside hd ho' _ rfl).of_parent hparent
  · rw [node_of_size_le hge₁] at ho
    cases ho

theorem Sourced.annotated (h : d.Sourced) (ha : Annotated d d₁) : d₁.Sourced :=
  fun i o ho => (h i o (ha.origin i ▸ ho)).of_parent fun j _ => ha.parent j

theorem Sourced.strokes (h : d.Sourced) (hd : d.Sound) (hstrokes : S.Strokes d d₁) : d₁.Sourced :=
  hstrokes.rule hd plant annotated h

/-! ## Addressed nodes -/

/-- The path leads to the node from the module of its first name. -/
def Addresses (d : Draft) (p : SchemaPath) (i : NodeId) : Prop :=
  ∃ q m, p.first? = some q ∧ d.moduleOf? q.owner = some m ∧ d.Leads (.module m) p.steps (.node i)

theorem addresses_of_findDataNode {p : SchemaPath} (h : d.findDataNode p = some n) :
    d.Addresses p n := by
  obtain ⟨q, m, hq, hm, hdesc⟩ := findDataNode_eq_some.1 h
  exact ⟨q, m, hq, hm, .of_descend (findDescendant_eq_some.1 hdesc).2⟩

theorem Addresses.outsideBodies {p : SchemaPath} (h : d.Addresses p n) (hd : d.Sound) :
    d.OutsideBodies (.node n) := by
  obtain ⟨q, m, -, -, hleads⟩ := h
  exact outsideBodies_of_under (hleads.under hd)

theorem Trimmed.leads (h : Trimmed d d₁) {p : List QName} (hp : d₁.Leads s p t) : d.Leads s p t := by
  induction hp with
  | nil => exact .nil _
  | @cons s x c p hc _ ih =>
    have hname : (d₁.node c).name = (d.node c).name := by
      rw [(h.node c).record]
      rfl
    rw [hname]
    exact .cons ((h.children s).subset hc) ih

theorem Trimmed.moduleOf? (h : Trimmed d d₁) (i : ModuleIdentity) : d₁.moduleOf? i = d.moduleOf? i := by
  refine moduleOf?_eq h.modules_size (fun m _ => ?_) i
  obtain ⟨children, -, hm⟩ := h.module m
  rw [hm]

/-- Whatever a path leads to when some nodes are taken out it led to before. -/
theorem Trimmed.addresses (h : Trimmed d d₁) {p : SchemaPath} (hp : d₁.Addresses p n) :
    d.Addresses p n := by
  obtain ⟨q, m, hq, hm, hleads⟩ := hp
  exact ⟨q, m, hq, h.moduleOf? q.owner ▸ hm, h.leads hleads⟩

/-! ## Edits at some nodes -/

/-- `x` is `c`, or a shorthand case around it. -/
def Around (d : Draft) (c x : NodeId) : Prop :=
  x = c ∨ (d.node x).kind = .caseNode true ∧ d.Under (.node c) (.node x)

/-- `d₁` is `d` with some nodes taken out; only those that `Changed` holds of say something else, and
only those that `Taken` holds of are missing. -/
structure EditedAt (Changed Taken : NodeId → Prop) (d d₁ : Draft) : Prop extends Trimmed d d₁ where
  record : ∀ i, ¬ Changed i → d₁.node i =
    { d.node i with children := (d₁.node i).children, parent := (d₁.node i).parent }
  kept : ∀ s, ∀ c ∈ d.childrenOf s, c ∈ d₁.childrenOf s ∨ Taken c

namespace EditedAt

variable {P P' Q Q' : NodeId → Prop}

theorem refl (hd : d.Sound) : EditedAt P Q d d := ⟨.refl hd, fun _ _ => rfl, fun _ _ hc => .inl hc⟩

theorem trans (h : EditedAt P Q d d₁) (h' : EditedAt P Q d₁ d₂) : EditedAt P Q d d₂ where
  toTrimmed := h.toTrimmed.trans h'.toTrimmed
  record i hi := by
    have hr := h'.record i hi
    rw [h.record i hi] at hr
    exact hr
  kept s c hc := (h.kept s c hc).elim (h'.kept s c) .inr

theorem mono (h : EditedAt P Q d d₁) (hP : ∀ i, P i → P' i) (hQ : ∀ i, Q i → Q' i) :
    EditedAt P' Q' d d₁ where
  toTrimmed := h.toTrimmed
  record i hi := h.record i fun hp => hi (hP i hp)
  kept s c hc := (h.kept s c hc).imp_right (hQ c)

end EditedAt

theorem editedAt_mapNode (hd : d.Sound) {r : NodeDraft} (hr : (d.node n).Deviated r) :
    EditedAt (· = n) (fun _ => False) d (d.mapNode n fun _ => r) where
  toTrimmed := (pruned_mapNode hd hr).toTrimmed
  record i hi := by
    rw [node_mapNode, if_neg fun h => hi h.1.symm]
  kept s c hc := by
    refine .inl ?_
    rw [mapNode_congr (f := fun _ => r) (g := r.alteredTo) hr]
    cases s with
    | node i =>
      show c ∈ ((d.mapNode n r.alteredTo).node i).children
      rw [node_mapNode]
      split <;> exact hc
    | _ => exact hc

theorem editedAt_detached (hd : d.Sound) (hc : (d.node c).parent = some s)
    (hout : d.OutsideBodies (.node c)) : EditedAt (fun _ => False) (· = c) d (d.detached s c) where
  toTrimmed := trimmed_detached hd hc hout
  record i _ := by
    rw [node_detached (lt_of_parent hc)]
  kept t x hx := by
    by_cases hxc : x = c
    · exact .inr hxc
    · exact .inl ((mem_childrenOf_detached (hd.hasSite_parent hc)).2 ⟨hx, fun _ => hxc⟩)

/-- A node is taken out alone, or with shorthand cases around it. -/
theorem ends_detachUpTo_edited (fuel : Nat) {d : Draft} (hd : d.Sound) (c : NodeId)
    (hout : d.OutsideBodies (.node c)) :
    Ends (detachUpTo fuel c) d (fun _ d' => EditedAt (fun _ => False) (d.Around c) d d')
      fun _ _ => False := by
  induction fuel generalizing d c with
  | zero => exact .refl hd
  | succ fuel ih =>
    rw [detachUpTo, ends_bind, ends_get]
    split
    next s hs =>
      rw [ends_bind, ends_editChildren hd.unfrozen, ends_bind,
        ends_editNode (hd.unfrozen.mapChildren s _)]
      have hedited : EditedAt (fun _ => False) (d.Around c) d (d.detached s c) :=
        (editedAt_detached hd hs hout).mono (fun _ h => h) fun _ h => .inl h
      change Ends _ (d.detached s c) _ _
      split
      · next p =>
        rw [ends_bind, ends_get]
        dsimp only
        split
        · next hempty =>
          have hp : (d.node p).kind = .caseNode true := by
            rw [← (hedited.node p).kind]
            exact NodeKind.isShorthandCase_iff.1 (Bool.and_eq_true_iff.1 hempty).1
          have hcp : d.Under (.node c) (.node p) := .up hs (.refl _)
          -- what is around the shorthand case is around the node in it
          have haround : ∀ x, (d.detached (.node p) c).Around p x → d.Around c x := by
            rintro x (rfl | ⟨hx, hpx⟩)
            · exact .inr ⟨hp, hcp⟩
            · exact .inr ⟨(hedited.node x).kind ▸ hx, hcp.trans (hedited.under hpx)⟩
          refine (ih hedited.sound p fun b h => hout b ?_).mono
            (fun _ _ h => hedited.trans (h.mono (fun _ h => h) haround)) fun _ _ h => h
          exact hcp.trans (hedited.under h)
        · exact hedited
      · exact hedited
    · exact .refl hd

/-! ## Deviations -/

theorem Trimmed.outsideBodies (h : Trimmed d d₁) (hs : d.OutsideBodies s) : d₁.OutsideBodies s :=
  fun b hb => hs b (h.under hb)

theorem Trimmed.around (h : Trimmed d d₁) {x : NodeId} (hx : d₁.Around c x) : d.Around c x := by
  refine hx.imp_right ?_
  rintro ⟨hkind, hunder⟩
  exact ⟨(h.node x).kind ▸ hkind, h.under hunder⟩

theorem ends_alterNode_edited (hd : d.Sound) {f : NodeDraft → Except Fault NodeDraft}
    (hf : ∀ n r, f n = .ok r → n.Deviated r) :
    Ends (alterNode n f) d (fun _ d' => EditedAt (· = n) (fun _ => False) d d') fun _ _ => True := by
  unfold alterNode
  rw [ends_bind, ends_get, hd.unfrozen.nodes, ends_bind, ends_requireOpen, ends_bind]
  show Ends (liftM (f (d.node n))) d _ _
  rw [ends_liftM]
  cases hr : f (d.node n) with
  | error e => exact trivial
  | ok r =>
    show Ends (modify fun d => d.mapNode n fun _ => r) d _ _
    rw [ends_modify]
    exact editedAt_mapNode hd (hf _ _ hr)

theorem ends_deviateNode_edited (l : List Deviate) {d : Draft} (hd : d.Sound)
    (hn : d.OutsideBodies (.node n)) :
    Ends (deviateNode n l) d (fun _ d' => EditedAt (· = n) (d.Around n) d d') fun _ _ => True := by
  induction l generalizing d with
  | nil => exact .refl hd
  | cons v rest ih =>
    have halter : ∀ change : DeviateProperty → NodeDraft → Except Fault NodeDraft,
        (∀ p n r, change p n = .ok r → n.Deviated r) →
        Ends (v.properties.forM fun p => alterNode n (change p)) d
          (fun _ d' => Ends (deviateNode n rest) d' (fun _ d' => EditedAt (· = n) (d.Around n) d d')
            fun _ _ => True) fun _ _ => True := by
      intro change hchange
      refine (ends_forM (I := fun _ d' => EditedAt (· = n) (d.Around n) d d') v.properties (.refl hd)
        ?_).mono (fun _ d₁ h => ?_) fun _ _ h => h
      · intro pre p post d₁ _ h
        refine (ends_alterNode_edited h.sound (hchange p)).mono (fun _ _ h' => ?_) fun _ _ h => h
        exact h.trans (h'.mono (fun _ h => h) fun _ h => h.elim)
      · refine (ih h.sound (h.outsideBodies hn)).mono (fun _ _ h' => ?_) fun _ _ _ => trivial
        exact h.trans (h'.mono (fun _ h => h) fun _ => h.around)
    rw [deviateNode]
    cases v.kind with
    | notSupported =>
      dsimp only
      rw [ends_bind]
      unfold detach
      rw [ends_bind, ends_get]
      refine (ends_detachUpTo_edited _ hd n hn).mono (fun _ _ h => ?_) fun _ _ h => h.elim
      exact h.mono (fun _ h => h.elim) fun _ h => h
    | add =>
      rw [ends_bind]
      exact halter _ fun _ _ _ => DeviateProperty.deviated_of_add
    | replace =>
      rw [ends_bind]
      exact halter _ fun _ _ _ => DeviateProperty.deviated_of_replace
    | delete =>
      rw [ends_bind]
      exact halter _ fun _ _ _ => DeviateProperty.deviated_of_delete

/-- One of the deviations addresses the node. -/
def AddressedBy (d : Draft) (tasks : List DeviationTask) (i : NodeId) : Prop :=
  ∃ t ∈ tasks, d.Addresses t.deviation.target i

/-- `d₁` is `d` after these deviations. -/
abbrev EditedBy (tasks : List DeviationTask) (d d₁ : Draft) : Prop :=
  EditedAt (d.AddressedBy tasks) (fun x => ∃ c, d.AddressedBy tasks c ∧ d.Around c x) d d₁

end Draft

theorem DeviationTask.ends_run_edited (t : DeviationTask) (removed : List SchemaPath) {d : Draft}
    (hd : d.Sound) : Ends (t.run removed) d (fun _ d' => EditedBy [t] d d') fun _ _ => True := by
  unfold run
  rw [ends_bind, ends_get]
  split
  · split
    · exact .refl hd
    · exact trivial
  · next n hn =>
    have haddressed := addresses_of_findDataNode hn
    have hby : d.AddressedBy [t] n := ⟨t, List.mem_singleton_self t, haddressed⟩
    rw [ends_bind]
    refine (ends_deviateNode_edited _ hd (haddressed.outsideBodies hd)).mono ?_ fun _ _ _ => trivial
    intro removed d' h
    have hedited : EditedBy [t] d d' := h.mono (fun i hi => hi ▸ hby) fun x hx => ⟨n, hby, hx⟩
    split <;> exact hedited

/-- Deviations edit what they address, and no more. -/
theorem ends_applyDeviations_edited (tasks : List DeviationTask) {d : Draft} (hd : d.Sound) :
    Ends (applyDeviations tasks) d (fun _ d' => EditedBy tasks d d') fun _ _ => True := by
  have hmem : ∀ t, t ∈ tasks.mergeSort (fun a b => (a.applyOrder b).isLE) → t ∈ tasks :=
    fun t ht => List.mem_mergeSort.1 ht
  unfold applyDeviations
  rw [ends_discard]
  refine ends_foldlM (I := fun _ _ d' => EditedBy tasks d d') _ _ (.refl hd) ?_
  intro pre t post removed d₁ hl h
  have ht : t ∈ tasks := hmem t (by rw [hl]; simp)
  have hby : ∀ i, d₁.AddressedBy [t] i → d.AddressedBy tasks i := by
    rintro i ⟨t', ht', hi⟩
    obtain rfl := List.mem_singleton.1 ht'
    exact ⟨t', ht, h.addresses hi⟩
  rw [ends_located]
  refine (t.ends_run_edited removed h.sound).mono (fun _ d₂ h' => ?_) fun _ _ _ => trivial
  refine h.trans (h'.mono hby ?_)
  rintro x ⟨c, hc, hx⟩
  exact ⟨c, hby c hc, h.around hx⟩

end YangSchema
