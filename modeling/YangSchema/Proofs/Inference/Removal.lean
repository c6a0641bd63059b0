import YangSchema.Proofs.Inference.Addressing

/-!
# Why a node is missing

When deviations have been applied, a node that is missing from the tree was removed by one of them, or
is a shorthand case that was left empty when all that was in it was removed (`Draft.Cleared`).  A
deviation keeps account of what it removes itself, but not of such cases.  So if a target was there
before all deviations and is not found any more, one of the targets that were removed is the target or
above it, or the target is a shorthand case that was left empty (`Cleared.descend`).
-/

namespace YangSchema

open Draft Edit

namespace Draft

variable {d₀ d d₁ d₂ : Draft} {removed removed' : List SchemaPath} {s t x : Site} {c n : NodeId}
  {p : SchemaPath}

/-- One of the paths leads to the node. -/
def NamedBy (d : Draft) (removed : List SchemaPath) (i : NodeId) : Prop :=
  ∃ p ∈ removed, d.Addresses p i

theorem NamedBy.mono (h : d.NamedBy removed c) (hsub : removed ⊆ removed') : d.NamedBy removed' c := by
  obtain ⟨p, hp, hc⟩ := h
  exact ⟨p, hsub hp, hc⟩

/-- The shorthand case `c` of `d₀` lists nothing in `d`, and something in it was removed. -/
structure Emptied (removed : List SchemaPath) (d₀ d : Draft) (c : NodeId) : Prop where
  kind : (d₀.node c).kind = .caseNode true
  children : d.childrenOf (.node c) = []
  removed : ∃ i, d₀.Under (.node i) (.node c) ∧ d₀.NamedBy removed i

/-- `d` is `d₀` after deviations that removed what the paths in `removed` lead to. -/
structure Cleared (removed : List SchemaPath) (d₀ d : Draft) : Prop extends Trimmed d₀ d where
  filtered : ∀ s, ∃ f : NodeId → Bool, d.childrenOf s = (d₀.childrenOf s).filter f
  missing : ∀ s, ∀ c ∈ d₀.childrenOf s, c ∉ d.childrenOf s →
    d₀.NamedBy removed c ∨ Emptied removed d₀ d c

theorem Emptied.step (h : Emptied removed d₀ d c) (hsub : removed ⊆ removed') (ht : Trimmed d d₁) :
    Emptied removed' d₀ d₁ c where
  kind := h.kind
  children := List.sublist_nil.1 (h.children ▸ ht.children (.node c))
  removed := by
    obtain ⟨i, hi, hnamed⟩ := h.removed
    exact ⟨i, hi, hnamed.mono hsub⟩

namespace Cleared

theorem refl (hd : d.Sound) : Cleared [] d d where
  toTrimmed := .refl hd
  filtered _ := ⟨fun _ => true, (List.filter_true _).symm⟩
  missing _ _ hc hne := absurd hc hne

theorem mono (h : Cleared removed d₀ d) (hsub : removed ⊆ removed') : Cleared removed' d₀ d where
  toTrimmed := h.toTrimmed
  filtered := h.filtered
  missing s c hc hne :=
    (h.missing s c hc hne).imp (fun hnamed => hnamed.mono hsub) fun he => he.step hsub (.refl h.sound)

/-- A node that keeps its place is changed. -/
theorem altered (h : Cleared removed d₀ d) (ht : Trimmed d d₁)
    (hchildren : ∀ s, d₁.childrenOf s = d.childrenOf s) : Cleared removed d₀ d₁ where
  toTrimmed := h.toTrimmed.trans ht
  filtered s := by
    rw [hchildren]
    exact h.filtered s
  missing s c hc hne := by
    rw [hchildren] at hne
    exact (h.missing s c hc hne).imp_right fun he => he.step (List.Subset.refl _) ht

/-- A node that was removed, or a shorthand case that was left empty, is taken out. -/
theorem detached (h : Cleared removed d₀ d) (hc : (d.node c).parent = some s)
    (hout : d.OutsideBodies (.node c)) (hwhy : d₀.NamedBy removed c ∨ Emptied removed d₀ d c) :
    Cleared removed d₀ (d.detached s c) := by
  have ht := trimmed_detached h.sound hc hout
  have hs := h.sound.hasSite_parent hc
  refine ⟨h.toTrimmed.trans ht, fun t => ?_, fun t i hi hne => ?_⟩
  · obtain ⟨f, hf⟩ := h.filtered t
    rw [childrenOf_detached]
    by_cases hts : t = s
    · subst hts
      rw [childrenOf_mapChildren_self hs, hf, List.filter_filter]
      exact ⟨_, rfl⟩
    · rw [childrenOf_mapChildren_of_ne (Ne.symm hts)]
      exact ⟨f, hf⟩
  · have hstep := fun he : Emptied removed d₀ d i => he.step (List.Subset.refl removed) ht
    by_cases hmem : i ∈ d.childrenOf t
    · obtain rfl : i = c := by
        by_contra hic
        exact hne ((mem_childrenOf_detached hs).2 ⟨hmem, fun _ => hic⟩)
      exact hwhy.imp_right hstep
    · exact (h.missing t i hi hmem).imp_right hstep

end Cleared

/-- Taking out a node goes on with the shorthand cases that are left empty. -/
theorem ends_detachUpTo_cleared (fuel : Nat) (h : Cleared removed d₀ d) (c : NodeId)
    (hout : d.OutsideBodies (.node c)) (hwhy : d₀.NamedBy removed c ∨ Emptied removed d₀ d c) :
    Ends (detachUpTo fuel c) d (fun _ d' => Cleared removed d₀ d') fun _ _ => False := by
  induction fuel generalizing d c with
  | zero => exact h
  | succ fuel ih =>
    rw [detachUpTo, ends_bind, ends_get]
    split
    next s hs =>
      rw [ends_bind, ends_editChildren h.sound.unfrozen, ends_bind,
        ends_editNode (h.sound.unfrozen.mapChildren s _)]
      have hcleared := h.detached hs hout hwhy
      have ht := trimmed_detached h.sound hs hout
      change Ends _ (d.detached s c) _ _
      split
      · next p =>
        rw [ends_bind, ends_get]
        dsimp only
        split
        · next hempty =>
          obtain ⟨hshort, hnil⟩ := Bool.and_eq_true_iff.1 hempty
          have hcp : d.Under (.node c) (.node p) := .up hs (.refl _)
          refine ih hcleared p (fun b hb => hout b (hcp.trans (ht.under hb))) (.inr ⟨?_, ?_, ?_⟩)
          · rw [← (hcleared.node p).kind]
            exact NodeKind.isShorthandCase_iff.1 hshort
          · exact List.isEmpty_iff.1 hnil
          · have hcp₀ := h.under hcp
            rcases hwhy with hnamed | he
            · exact ⟨c, hcp₀, hnamed⟩
            · obtain ⟨i, hi, hnamed⟩ := he.removed
              exact ⟨i, hi.trans hcp₀, hnamed⟩
        · exact hcleared
      · exact hcleared
    · exact h

theorem ends_alterNode_cleared (h : Cleared removed d₀ d) {f : NodeDraft → Except Fault NodeDraft}
    (hf : ∀ n r, f n = .ok r → n.Deviated r) (hfails : ∀ n, FailsOnly Cause.IsRefusal (f n)) :
    Ends (alterNode n f) d (fun _ d' => Trimmed d d' ∧ Cleared removed d₀ d')
      fun f _ => f.cause.IsRefusal := by
  unfold alterNode
  rw [ends_bind, ends_get, h.sound.unfrozen.nodes, ends_bind, ends_requireOpen, ends_bind]
  show Ends (liftM (f (d.node n))) d _ _
  rw [ends_liftM]
  cases hr : f (d.node n) with
  | error e => exact hfails _ e hr
  | ok r =>
    show Ends (modify fun d => d.mapNode n fun _ => r) d _ _
    rw [ends_modify]
    have ht := (pruned_mapNode h.sound (hf _ _ hr)).toTrimmed
    refine ⟨ht, h.altered ht fun s => ?_⟩
    rw [mapNode_congr (f := fun _ => r) (g := r.alteredTo) (hf _ _ hr)]
    exact ((harmless_alteredTo r).alike h.sound.unfrozen n).childrenOf s

/-- A deviation of the node that the path leads to. -/
theorem ends_deviateNode_cleared (l : List Deviate) (h : Cleared removed d₀ d)
    (hn : d₀.Addresses p n) (hout : d.OutsideBodies (.node n)) :
    Ends (deviateNode n l) d
      (fun gone d' => if gone then Cleared (removed ++ [p]) d₀ d' ∧ ∃ v ∈ l, v.kind = .notSupported
        else Cleared removed d₀ d')
      fun f _ => f.cause.IsRefusal := by
  induction l generalizing d with
  | nil => exact h
  | cons v rest ih =>
    have halter : ∀ change : DeviateProperty → NodeDraft → Except Fault NodeDraft,
        (∀ p n r, change p n = .ok r → n.Deviated r) →
        (∀ p n, FailsOnly Cause.IsRefusal (change p n)) →
        Ends (v.properties.forM fun p => alterNode n (change p)) d
          (fun _ d' => Ends (deviateNode n rest) d' (fun gone d'' =>
            if gone then Cleared (removed ++ [p]) d₀ d'' ∧ ∃ v' ∈ v :: rest, v'.kind = .notSupported
            else Cleared removed d₀ d'') fun f _ => f.cause.IsRefusal)
          fun f _ => f.cause.IsRefusal := by
      intro change hchange hfails
      refine (ends_forM (I := fun _ d' => Cleared removed d₀ d' ∧ d'.OutsideBodies (.node n))
        v.properties ⟨h, hout⟩ ?_).mono ?_ fun _ _ hf => hf
      · rintro pre q post d₁ - ⟨h₁, hout₁⟩
        refine (ends_alterNode_cleared h₁ (hchange q) (hfails q)).mono ?_ fun _ _ hf => hf
        rintro - d₂ ⟨ht, h₂⟩
        exact ⟨h₂, ht.outsideBodies hout₁⟩
      · rintro - d₁ ⟨h₁, hout₁⟩
        refine (ih h₁ hout₁).mono ?_ fun _ _ hf => hf
        rintro (_ | _) d₂ h₂
        · exact h₂
        · obtain ⟨h₂, v', hv', hkind⟩ := h₂
          exact ⟨h₂, v', List.mem_cons_of_mem _ hv', hkind⟩
    rw [deviateNode]
    cases hkind : v.kind with
    | notSupported =>
      dsimp only
      rw [ends_bind]
      unfold detach
      rw [ends_bind, ends_get]
      have hnamed : d₀.NamedBy (removed ++ [p]) n := ⟨p, by simp, hn⟩
      refine (ends_detachUpTo_cleared _ (h.mono (List.subset_append_left _ _)) n hout
        (.inl hnamed)).mono ?_ fun _ _ hf => hf.elim
      rintro - d' h'
      exact ⟨h', v, List.mem_cons_self, hkind⟩
    | add =>
      rw [ends_bind]
      exact halter _ (fun _ _ _ => DeviateProperty.deviated_of_add) DeviateProperty.failsOnly_add
    | replace =>
      rw [ends_bind]
      exact halter _ (fun _ _ _ => DeviateProperty.deviated_of_replace)
        DeviateProperty.failsOnly_replace
    | delete =>
      rw [ends_bind]
      exact halter _ (fun _ _ _ => DeviateProperty.deviated_of_delete)
        DeviateProperty.failsOnly_delete

/-! ## What is still found -/

namespace Cleared

variable (h : Cleared removed d₀ d)
include h

theorem name_eq (i : NodeId) : (d.node i).name = (d₀.node i).name := by
  rw [(h.node i).record]
  rfl

/-- The first child of a name is found as long as it is there. -/
theorem findChild {q : QName} (hc : d₀.findChild s q = some c) (hmem : c ∈ d.childrenOf s) :
    d.findChild s q = some c := by
  obtain ⟨f, hf⟩ := h.filtered s
  have hname : ∀ i, ((d.node i).name == q) = ((d₀.node i).name == q) := fun i => by rw [h.name_eq]
  unfold Draft.findChild at hc ⊢
  simp only [hname, hf]
  rw [List.find?_filter]
  rw [hf] at hmem
  obtain ⟨hq, pre, post, hl, hpre⟩ := List.find?_eq_some_iff_append.1 hc
  refine List.find?_eq_some_iff_append.2 ⟨?_, pre, post, hl, fun i hi => ?_⟩
  · rw [(List.mem_filter.1 hmem).2, hq]
    rfl
  · have hne := hpre i hi
    simp only [Bool.not_eq_true'] at hne
    simp [hne]

/-- Where steps led before they lead now, or something on the way was removed, or what they led to was
left empty. -/
theorem descend {q : List QName} (hx : d₀.descend s q = some x) :
    d.descend s q = some x ∨
    (∃ q₁ q₂ c, q = q₁ ++ q₂ ∧ d₀.Leads s q₁ (.node c) ∧ d₀.NamedBy removed c) ∨
    ∃ c, x = .node c ∧ Emptied removed d₀ d c := by
  induction q generalizing s with
  | nil => exact .inl hx
  | cons a q ih =>
    obtain ⟨c, hc, hrest⟩ := descend_cons.1 hx
    obtain ⟨hmem₀, rfl⟩ := findChild_eq_some hc
    have hleads : d₀.Leads s [(d₀.node c).name] (.node c) := .cons hmem₀ (.nil _)
    by_cases hmem : c ∈ d.childrenOf s
    · rcases ih hrest with hy | ⟨q₁, q₂, i, rfl, hi, hnamed⟩ | hemptied
      · exact .inl (descend_cons.2 ⟨c, h.findChild hc hmem, hy⟩)
      · exact .inr (.inl ⟨_ :: q₁, q₂, i, rfl, .cons hmem₀ hi, hnamed⟩)
      · exact .inr (.inr hemptied)
    rcases h.missing s c hmem₀ hmem with hnamed | hempty
    · exact .inr (.inl ⟨[_], q, c, rfl, hleads, hnamed⟩)
    rcases ih hrest with hy | ⟨q₁, q₂, i, rfl, hi, hnamed⟩ | hemptied
    · cases q with
      | nil =>
        cases hrest
        exact .inr (.inr ⟨c, rfl, hempty⟩)
      | cons a q =>
        -- below the case that was left empty nothing is found
        obtain ⟨i, hi, -⟩ := descend_cons.1 hy
        have hin := (findChild_eq_some hi).1
        rw [hempty.children] at hin
        cases hin
    · exact .inr (.inl ⟨_ :: q₁, q₂, i, rfl, .cons hmem₀ hi, hnamed⟩)
    · exact .inr (.inr hemptied)

end Cleared

end Draft

end YangSchema
