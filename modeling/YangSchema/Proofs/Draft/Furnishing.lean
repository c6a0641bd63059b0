import YangSchema.Proofs.Draft.Pathed

/-!
# The bodies of copied augmentations

Beside the nodes, copying makes new augmentations: those of the uses that are copied.  The body of such
a one lists the copies of what the body of its source lists, one for one (`Furnished.bodies`); its nodes
have the paths of their places; and where no node lists uses, none does after copying.
-/

namespace YangSchema

namespace Draft

open Edit

variable {style : CopyStyle} {d₀ d d₁ d₂ : Draft} {X Y : AugmentId → Prop} {P : Item → Prop} {s : Site}

/-- No uses stands at a node. -/
def NoUses (d : Draft) : Prop := ∀ i, (d.node i).uses = []

/-- `d₁` grew out of `d` by copies of what `P` holds of in `d₀`; the augmentations in `X` are in the
making. -/
structure Furnished (X : AugmentId → Prop) (P : Item → Prop) (d₀ d d₁ : Draft) : Prop where
  pathed : d.Pathed → d₁.Pathed
  noUses : d.NoUses → d₁.NoUses
  bodies : ∀ a, d.augments.size ≤ a.index → a.index < d₁.augments.size → X a ∨
    ∃ o, P (.site (.augment o)) ∧ (d₁.childrenOf (.augment a)).map (fun c => (d₁.node c).origin) =
      (d₀.childrenOf (.augment o)).map some

namespace Furnished

theorem refl (d₀ d : Draft) : Furnished X P d₀ d d where
  pathed h := h
  noUses h := h
  bodies _ h₁ h₂ := absurd h₁ (Nat.not_le.2 h₂)

/-- An edit that adds no augmentation, and touches the bodies of those in the making only. -/
theorem step (h : Furnished X P d₀ d d₁) (hd₁ : d₁.Sound) (hpathed : d₁.Pathed → d₂.Pathed)
    (hnone : d.NoUses → d₁.NoUses → d₂.NoUses) (hsize : d₂.augments.size = d₁.augments.size)
    (hchildren : ∀ a, ¬ X a → d₂.childrenOf (.augment a) = d₁.childrenOf (.augment a))
    (horigin : ∀ i, i.index < d₁.nodes.size → (d₂.node i).origin = (d₁.node i).origin) :
    Furnished X P d₀ d d₂ where
  pathed hp := hpathed (h.pathed hp)
  noUses hb := hnone hb (h.noUses hb)
  bodies a h₁ h₂ := by
    by_cases ha : X a
    · exact .inl ha
    refine (h.bodies a h₁ (hsize ▸ h₂)).imp_right ?_
    rintro ⟨o, ho, hmap⟩
    refine ⟨o, ho, ?_⟩
    rw [hchildren a ha, ← hmap]
    exact List.map_congr_left fun c hc => horigin c (hd₁.child_lt hc)

theorem trans (h : Furnished X P d₀ d d₁) (h' : Furnished Y P d₀ d₁ d₂) (he : d₁.Extends d₂)
    (hd₁ : d₁.Sound) (hY : ∀ a, Y a → X a) : Furnished X P d₀ d d₂ where
  pathed hp := h'.pathed (h.pathed hp)
  noUses hb := h'.noUses (h.noUses hb)
  bodies a h₁ h₂ := by
    by_cases ha : a.index < d₁.augments.size
    · refine (h.bodies a h₁ ha).imp_right ?_
      rintro ⟨o, ho, hmap⟩
      refine ⟨o, ho, ?_⟩
      rw [he.childrenOf (s := .augment a) ha, ← hmap]
      exact List.map_congr_left fun c hc => congrArg _ (he.node c (hd₁.child_lt hc))
    · exact (h'.bodies a (Nat.not_lt.1 ha) h₂).imp_left (hY a)

/-- A node without contents. -/
theorem withNode (hd : d.Sound) {r : NodeDraft} (hc : r.children = []) (hu : r.uses = [])
    (hp : r.parent = none) : Furnished X P d₀ d (d.withNode r) := by
  refine (refl d₀ d).step hd (fun h => h.withNode hd hc hp) (fun _ h i => ?_) rfl (fun _ _ => rfl)
    fun i hi => ?_
  · rw [node_withNode]
    split
    · exact hu
    · exact h i
  · rw [(Extends.withNode d r).node i hi]

theorem withUses (h : Furnished X P d₀ d d₁) (hd₁ : d₁.Sound) (r : UsesDraft) :
    Furnished X P d₀ d (d₁.withUses r) :=
  h.step hd₁ (fun h => h.withUses hd₁ r) (fun _ h => h) rfl (fun _ _ => rfl) fun _ _ => rfl

/-- A uses is put somewhere, but at no node where the draft has none at nodes. -/
theorem pushedUses (h : Furnished X P d₀ d d₁) (hd₁ : d₁.Sound) {u : UsesId}
    (hs : d.NoUses → ∀ i, s ≠ .node i) : Furnished X P d₀ d (d₁.pushedUses s u) := by
  refine h.step hd₁ (fun h => h.pushedUses hd₁ s u) (fun hb h i => ?_) (d₁.sizes_pushedUses s u).2.2.2.1
    (fun a _ => childrenOf_pushedUses s (.augment a) u) fun i _ => ?_
  · rw [node_pushedUses]
    exact (usesAt_pushedUses_of_ne (hs hb i) u).trans (h i)
  · rw [node_pushedUses]

/-- A copy is hung into another one. -/
theorem placed {copy c : NodeId} (h : Furnished X P d₀ d d₁) (hd₁ : d₁.Sound)
    (hc : c.index < d₁.nodes.size) (hcopy : (d₁.node copy).parent = none) (hne : copy ≠ c) :
    Furnished X P d₀ d (d₁.placed (.node copy) c) := by
  refine h.step hd₁ (fun h => h.placed hc hcopy hne) (fun _ h i => ?_) rfl
    (fun a _ => childrenOf_placed_of_ne (by simp)) fun i _ => ?_
  · rw [node_placed hc]
    exact h i
  · rw [node_placed hc]

/-- A copy is attached to an augmentation in the making. -/
theorem attach {a : AugmentId} {c r : NodeId} (h : Furnished X P d₀ d d₁) (hd₁ : d₁.Sound) (ha : X a)
    (hlt : a.index < d₁.augments.size) (hc : c.index < d₁.nodes.size)
    (hparent : (d₁.node c).parent = none) (h' : d₁.Attached (.augment a) c r d₂) :
    Furnished X P d₀ d d₂ := by
  have hsize := (h'.direct rfl).2
  have hout : ¬ d₁.Under (.augment a) (.node c) := by
    intro hu
    cases hu
  refine h.step hd₁ (fun h => h'.pathed hd₁ h hparent hc hlt hout) (fun _ h i => ?_) h'.augments_size
    (fun b hb => ?_) fun i hi => ?_
  · exact (h'.usesAt (.node i)).trans (h i)
  · refine h'.children_of_ne _ (by simp) ?_
    rintro heq
    cases heq
    exact hb ha
  · rw [h'.node i hi]
    rfl

/-- An augmentation in the making gets its body, and is made. -/
theorem made {a o : AugmentId} (h : Furnished (· = a) P d₀ d d₁) (ho : P (.site (.augment o)))
    (hmap : (d₁.childrenOf (.augment a)).map (fun c => (d₁.node c).origin) =
      (d₀.childrenOf (.augment o)).map some) : Furnished (fun _ => False) P d₀ d d₁ where
  pathed := h.pathed
  noUses := h.noUses
  bodies b h₁ h₂ := by
    rcases h.bodies b h₁ h₂ with rfl | hb
    · exact .inr ⟨o, ho, hmap⟩
    · exact .inr hb

/-- An augmentation without a body as yet. -/
theorem withAugment (hd : d.Sound) {r : AugmentDraft} (hc : r.children = []) :
    Furnished (· = ⟨d.augments.size⟩) P d₀ d (d.withAugment r) where
  pathed h := h.withAugment hd hc
  noUses h := h
  bodies a h₁ h₂ := by
    rw [Draft.withAugment, Shelf.size_push] at h₂
    refine .inl ?_
    cases a
    exact congrArg AugmentId.mk (Nat.le_antisymm (Nat.le_of_lt_succ h₂) h₁)

end Furnished

/-! ## The functions -/

def FurnishesNodes (style : CopyStyle) (P : Item → Prop) (d₀ : Draft) (fuel : Nat) : Prop :=
  ∀ source d, d₀.Extends d → d.Sound → P (.site (.node source)) →
    Nests d₀.Contains fuel (.site (.node source)) →
    Ends (copyNodeUpTo style fuel source) d (fun _ d' => Furnished (fun _ => False) P d₀ d d')
      fun _ _ => False

def FurnishesUses (style : CopyStyle) (P : Item → Prop) (d₀ : Draft) (fuel : Nat) : Prop :=
  ∀ source d, d₀.Extends d → d.Sound → P (.uses source) →
    Nests d₀.Contains fuel (.uses source) →
    Ends (copyUsesUpTo style fuel source) d (fun _ d' => Furnished (fun _ => False) P d₀ d d')
      fun _ _ => False

def FurnishesAugments (style : CopyStyle) (P : Item → Prop) (d₀ : Draft) (fuel : Nat) : Prop :=
  ∀ source d, d₀.Extends d → d.Sound → P (.site (.augment source)) →
    Nests d₀.Contains fuel (.site (.augment source)) →
    Ends (copyAugmentUpTo style fuel source) d (fun _ d' => Furnished (fun _ => False) P d₀ d d')
      fun _ _ => False

section

variable (hP : ∀ x y, P x → d₀.Contains y x → P y) (hhas : ∀ x, P x → d₀.HasItem x)

/-- Copied uses are put at a new site; in a draft without uses at nodes there are none for a node. -/
theorem FurnishesUses.ends_forM {Z : NodeId → Prop} {fuel : Nat} (hcopy : CopiesUses style P d₀ fuel)
    (hfurnish : FurnishesUses style P d₀ fuel) {l : List UsesId}
    (hl : ∀ u ∈ l, P (.uses u) ∧ Nests d₀.Contains fuel (.uses u))
    (he : d₀.Extends d) (hs : ¬ d.HasSite s) (hs₁ : d₁.HasSite s) (hg : Grows style Z P d₀ d d₁)
    (h : Furnished X P d₀ d d₁) (hnone : l ≠ [] → d.NoUses → ∀ i, s ≠ .node i) :
    Ends (l.forM fun u => do pushUses s (← copyUsesUpTo style fuel u)) d₁
      (fun _ d₂ => Furnished X P d₀ d d₂ ∧ ∀ a, a.index < d₁.augments.size →
        (d₂.childrenOf (.augment a)).map (fun c => (d₂.node c).origin) =
          (d₁.childrenOf (.augment a)).map fun c => (d₁.node c).origin)
      fun _ _ => False := by
  refine Edit.ends_forM (I := fun _ d₂ => Grows style Z P d₀ d d₂ ∧ d₂.HasSite s ∧
    Furnished X P d₀ d d₂ ∧ d₁.augments.size ≤ d₂.augments.size ∧ ∀ a, a.index < d₁.augments.size →
      (d₂.childrenOf (.augment a)).map (fun c => (d₂.node c).origin) =
        (d₁.childrenOf (.augment a)).map fun c => (d₁.node c).origin) l
    ⟨hg, hs₁, h, Nat.le_refl _, fun _ _ => rfl⟩ ?_ |>.mono (fun _ _ h => ⟨h.2.2.1, h.2.2.2.2⟩)
      fun _ _ hE => hE
  rintro pre u post d₂ hpre ⟨hg₂, hs₂, h₂, hle, hsame⟩
  obtain ⟨hu, hfuel⟩ := hl u (by rw [hpre]; simp)
  have he₂ := he.trans hg₂.extends_
  rw [ends_bind]
  refine ((hcopy u d₂ he₂ hg₂.sound hu hfuel).and (hfurnish u d₂ he₂ hg₂.sound hu hfuel)).mono ?_
    fun _ _ hE => hE.1
  rintro v d₃ ⟨⟨hg₃, hv, hlt⟩, h₃⟩
  rw [ends_pushUses hg₃.sound.unfrozen]
  have hs₃ := hg₃.extends_.hasSite hs₂
  refine ⟨hg₂.pushUses hs hs₂ hg₃ hv hlt, ?_, ?_, ?_, fun a ha => ?_⟩
  · obtain ⟨h₁, h₂, -, h₄, h₅⟩ := d₃.sizes_pushedUses s v
    cases s with
    | module i => rwa [HasSite, h₅]
    | node i => rwa [HasSite, h₁]
    | grouping i => rwa [HasSite, h₂]
    | augment i => rwa [HasSite, h₄]
  · refine (h₂.trans h₃ hg₃.extends_ hg₂.sound fun _ h => h.elim).pushedUses hg₃.sound
      (hnone ?_)
    rw [hpre]
    simp
  · rw [(d₃.sizes_pushedUses s v).2.2.2.1]
    exact Nat.le_trans hle hg₃.extends_.augments_le
  · have ha₂ : d₂.HasSite (.augment a) := Nat.lt_of_lt_of_le ha hle
    rw [← hsame a ha, childrenOf_pushedUses, hg₃.extends_.childrenOf ha₂]
    refine List.map_congr_left fun c hc => ?_
    rw [node_pushedUses, hg₃.extends_.node c (hg₂.sound.child_lt hc)]

include hP hhas

theorem FurnishesNodes.succ {fuel : Nat} (hn : CopiesNodes style P d₀ fuel)
    (hu : CopiesUses style P d₀ fuel) (hn' : FurnishesNodes style P d₀ fuel)
    (hu' : FurnishesUses style P d₀ fuel) : FurnishesNodes style P d₀ (fuel + 1) := by
  intro source d he hd hsource hfuel
  rw [copyNodeUpTo, ends_bind, ends_get]
  dsimp only
  rw [he.node source (hhas _ hsource), ends_bind, ends_addNode, ends_bind]
  have hself : (d.withNode (style.node source (d₀.node source))).node ⟨d.nodes.size⟩ =
      style.node source (d₀.node source) := by
    rw [node_withNode_self]
  -- the children are copied and hung into the copy
  refine (ends_forM (I := fun _ d₁ => Grows style (· = ⟨d.nodes.size⟩) P d₀ d d₁ ∧
    d.nodes.size < d₁.nodes.size ∧ (d₁.node ⟨d.nodes.size⟩).parent = none ∧
    Furnished (fun _ => False) P d₀ d d₁) _ ⟨.withNode hd rfl rfl rfl, ?_, by rw [hself]; rfl,
      .withNode hd rfl rfl rfl⟩ ?_).mono ?_ fun _ _ hE => hE
  · exact Shelf.lt_size_push _ _
  · rintro pre x post d₁ hpre ⟨hg₁, hlt₁, hparent, h₁⟩
    have hin : d₀.Contains _ (.site (.node source)) :=
      contains_site.2 (.inl ⟨x, (by rw [hpre]; simp : x ∈ (d₀.node source).children), rfl⟩)
    have hx := hP _ _ hsource hin
    have he₁ := he.trans hg₁.extends_
    rw [ends_bind]
    refine ((hn x d₁ he₁ hg₁.sound hx (hfuel.down hin)).and
      (hn' x d₁ he₁ hg₁.sound hx (hfuel.down hin))).mono ?_ fun _ _ hE => hE.1
    rintro c d₂ ⟨⟨hg₂, rfl, hlt, hnone, -⟩, h₂⟩
    rw [ends_hang hg₂.sound.unfrozen]
    have hnode := hg₂.extends_.node ⟨d.nodes.size⟩ hlt₁
    have hne : (⟨d.nodes.size⟩ : NodeId) ≠ ⟨d₁.nodes.size⟩ := by
      simpa using Nat.ne_of_lt hlt₁
    refine ⟨hg₁.hang (Nat.le_refl _) hlt₁ hg₂ (Nat.le_refl _) hlt hnone, ?_, ?_, ?_⟩
    · rw [Draft.placed, mapNode, Shelf.size_update, (sizes_mapChildren _ _).1]
      exact Nat.lt_of_lt_of_le hlt₁ hg₂.extends_.nodes_le
    · rw [node_placed hlt, if_neg hne, hnode]
      exact hparent
    · exact (h₁.trans h₂ hg₂.extends_ hg₁.sound fun _ h => h).placed hg₂.sound hlt
        (hnode ▸ hparent) hne
  rintro - d₁ ⟨hg₁, hlt₁, -, h₁⟩
  rw [ends_bind]
  refine (hu'.ends_forM (s := .node ⟨d.nodes.size⟩) hu (fun u hu => ⟨?_, ?_⟩) he (Nat.lt_irrefl _)
    hlt₁ hg₁ h₁ ?_).mono ?_ fun _ _ hE => hE
  · exact hP _ _ hsource (contains_site.2 (.inr ⟨u, hu, rfl⟩))
  · exact hfuel.down (contains_site.2 (.inr ⟨u, hu, rfl⟩))
  · intro hne hnone
    refine absurd ?_ hne
    rw [← he.node source (hhas _ hsource)]
    exact hnone source
  · rintro - d₂ ⟨h₂, -⟩
    exact h₂

theorem FurnishesUses.succ {fuel : Nat} (ha : CopiesAugments style P d₀ fuel)
    (ha' : FurnishesAugments style P d₀ fuel) : FurnishesUses style P d₀ (fuel + 1) := by
  intro source d he hd hsource hfuel
  rw [copyUsesUpTo, ends_bind, ends_get]
  dsimp only
  rw [he.usesOf source (hhas _ hsource), ends_bind]
  refine (ends_mapM (I := fun _ _ d₁ => Grows style (fun _ => False) P d₀ d d₁ ∧
    Furnished (fun _ => False) P d₀ d d₁) _ ⟨.refl hd, .refl d₀ d⟩ ?_).mono ?_ fun _ _ hE => hE
  · rintro pre a post rs d₁ hl ⟨hg₁, h₁⟩
    have hmem : a ∈ (d₀.usesOf source).augmentations := by rw [hl]; simp
    have hin := contains_uses.2 ⟨a, hmem, rfl⟩
    have he₁ := he.trans hg₁.extends_
    refine ((ha a d₁ he₁ hg₁.sound (hP _ _ hsource hin) (hfuel.down hin)).and
      (ha' a d₁ he₁ hg₁.sound (hP _ _ hsource hin) (hfuel.down hin))).mono ?_ fun _ _ hE => hE.1
    rintro b d₂ ⟨⟨hg₂, -, -⟩, h₂⟩
    exact ⟨hg₁.trans hg₂ fun _ h => h, h₁.trans h₂ hg₂.extends_ hg₁.sound fun _ h => h⟩
  · rintro rs d₁ ⟨hg₁, h₁⟩
    rw [ends_addUses]
    exact h₁.withUses hg₁.sound _

theorem FurnishesAugments.succ {fuel : Nat} (hn : CopiesNodes style P d₀ fuel)
    (hu : CopiesUses style P d₀ fuel) (hn' : FurnishesNodes style P d₀ fuel)
    (hu' : FurnishesUses style P d₀ fuel) : FurnishesAugments style P d₀ (fuel + 1) := by
  intro source d he hd hsource hfuel
  rw [copyAugmentUpTo, ends_bind, ends_get]
  dsimp only
  rw [he.augment source (hhas _ hsource), ends_bind, ends_addAugment, ends_bind]
  have hself : (d.withAugment (style.augment source (d₀.augment source))).childrenOf
      (.augment ⟨d.augments.size⟩) = [] := by
    rw [childrenOf_withAugment rfl]
    exact childrenOf_of_not_hasSite (s := .augment ⟨d.augments.size⟩) (Nat.lt_irrefl d.augments.size)
  refine (ends_forM (I := fun pre d₁ => Grows style (fun _ => False) P d₀ d d₁ ∧
    d.augments.size < d₁.augments.size ∧ Furnished (· = ⟨d.augments.size⟩) P d₀ d d₁ ∧
    (d₁.childrenOf (.augment ⟨d.augments.size⟩)).map (fun c => (d₁.node c).origin) = pre.map some) _
    ⟨.withAugment hd rfl rfl hsource rfl, ?_, .withAugment hd rfl, by rw [hself]; rfl⟩ ?_).mono ?_
    fun _ _ hE => hE
  · exact Shelf.lt_size_push _ _
  · rintro pre x post d₁ hl ⟨hg₁, hlt₁, h₁, hmap⟩
    have hin : d₀.Contains _ (.site (.augment source)) :=
      contains_site.2 (.inl ⟨x, (by rw [hl]; simp : x ∈ (d₀.augment source).children), rfl⟩)
    have hx := hP _ _ hsource hin
    have he₁ := he.trans hg₁.extends_
    rw [ends_bind]
    refine ((hn x d₁ he₁ hg₁.sound hx (hfuel.down hin)).and
      (hn' x d₁ he₁ hg₁.sound hx (hfuel.down hin))).mono ?_ fun _ _ hE => hE.1
    rintro c d₂ ⟨⟨hg₂, rfl, hlt, hnone, horigin⟩, h₂⟩
    rw [ends_discard]
    have hs₁ : d₁.HasSite (.augment ⟨d.augments.size⟩) := hlt₁
    have hs₂ := hg₂.extends_.hasSite hs₁
    refine (ends_attach hg₂.sound hs₂ (hg₂.loose (Nat.le_refl _) hlt hnone) (fun h => h.2 hs₁)
      fun _ hx => hx.1).mono ?_ ?_
    · rintro r d₃ ⟨-, hatt⟩
      obtain ⟨rfl, -⟩ := hatt.direct rfl
      have h₁₂ := h₁.trans h₂ hg₂.extends_ hg₁.sound fun _ h => h.elim
      refine ⟨(hg₁.trans hg₂ fun _ h => h).attach hd (Nat.le_refl _) hg₁.extends_.nodes_le hatt,
        ?_, h₁₂.attach hg₂.sound rfl hs₂ hlt hnone hatt, ?_⟩
      · rw [hatt.augments_size]
        exact hs₂
      · rw [hatt.children_self, hg₂.extends_.childrenOf hs₁, List.map_append, List.map_append, ← hmap]
        congr 1
        · refine List.map_congr_left fun j hj => ?_
          have hj₁ := hg₁.sound.child_lt hj
          rw [hatt.node j (Nat.lt_of_lt_of_le hj₁ hg₂.extends_.nodes_le), ← hg₂.extends_.node j hj₁]
          rfl
        · rw [List.map_singleton]
          exact congrArg (fun o => [o]) ((congrArg NodeDraft.origin (hatt.node _ hlt)).trans horigin)
    · rintro f d₃ ⟨hacc, -⟩
      cases hacc
  · rintro - d₁ ⟨hg₁, hlt₁, h₁, hmap⟩
    rw [ends_bind]
    refine (hu'.ends_forM (s := .augment ⟨d.augments.size⟩) hu (fun u hu => ⟨?_, ?_⟩) he
      (Nat.lt_irrefl _) hlt₁ hg₁ h₁ fun _ _ i => by simp).mono ?_ fun _ _ hE => hE
    · exact hP _ _ hsource (contains_site.2 (.inr ⟨u, hu, rfl⟩))
    · exact hfuel.down (contains_site.2 (.inr ⟨u, hu, rfl⟩))
    rintro - d₂ ⟨h₂, hsame⟩
    exact h₂.made hsource ((hsame _ hlt₁).trans hmap)

theorem furnishes (fuel : Nat) : FurnishesNodes style P d₀ fuel ∧ FurnishesUses style P d₀ fuel ∧
    FurnishesAugments style P d₀ fuel := by
  induction fuel with
  | zero =>
    refine ⟨?_, ?_, ?_⟩
    all_goals
      intro _ _ _ _ _ hfuel
      cases hfuel
  | succ fuel ih =>
    obtain ⟨hn', hu', ha'⟩ := ih
    obtain ⟨hn, hu, ha⟩ : CopiesNodes style P d₀ fuel ∧ CopiesUses style P d₀ fuel ∧
        CopiesAugments style P d₀ fuel := copies hP hhas fuel
    exact ⟨FurnishesNodes.succ hP hhas hn hu hn' hu', FurnishesUses.succ hP hhas ha ha',
      FurnishesAugments.succ hP hhas hn hu hn' hu'⟩

end

/-! ## Copying -/

/-- Copying a node. -/
theorem ends_copyNode_furnished (hd : d.Sound) {source : NodeId} (h : source.index < d.nodes.size) :
    Ends (copyNode style source) d (fun c d' =>
      (Grows style (fun _ => False) (d.Inside (.site (.node source))) d d d' ∧
        c = ⟨d.nodes.size⟩ ∧ c.index < d'.nodes.size ∧ (d'.node c).parent = none ∧
        (d'.node c).origin = some source) ∧
      Furnished (fun _ => False) (d.Inside (.site (.node source))) d d d') fun _ _ => False := by
  have hhas : ∀ x, d.Inside (.site (.node source)) x → d.HasItem x := fun x hx =>
    hd.hasItem_of_inside hx h
  refine ((ends_copyNode hd h).and (R := fun _ d' =>
    Furnished (fun _ => False) (d.Inside (.site (.node source))) d d d') (F := fun _ _ => False)
    ?_).mono (fun _ _ h => h) fun _ _ h => h.1
  rw [copyNode, ends_bind, ends_get]
  exact (furnishes (fun _ _ => Inside.contains) hhas d.size).1 source d (.refl d) hd .refl
    (hd.nests_size h)

/-- Copying a uses. -/
theorem ends_copyUses_furnished (hd : d.Sound) {source : UsesId} (h : source.index < d.uses.size) :
    Ends (copyUses style source) d (fun u d' =>
      (Grows style (fun _ => False) (d.Inside (.uses source)) d d d' ∧
        d.uses.size ≤ u.index ∧ u.index < d'.uses.size) ∧
      Furnished (fun _ => False) (d.Inside (.uses source)) d d d') fun _ _ => False := by
  have hhas : ∀ x, d.Inside (.uses source) x → d.HasItem x := fun x hx => hd.hasItem_of_inside hx h
  refine ((ends_copyUses hd h).and (R := fun _ d' =>
    Furnished (fun _ => False) (d.Inside (.uses source)) d d d') (F := fun _ _ => False)
    ?_).mono (fun _ _ h => h) fun _ _ h => h.1
  rw [copyUses, ends_bind, ends_get]
  exact (furnishes (fun _ _ => Inside.contains) hhas d.size).2.1 source d (.refl d) hd .refl
    (hd.nests_size h)

/-- Copying an augmentation. -/
theorem ends_copyAugment_furnished (hd : d.Sound) {source : AugmentId}
    (h : source.index < d.augments.size) :
    Ends (copyAugment style source) d (fun _ d' =>
      Grows style (fun _ => False) (d.Inside (.site (.augment source))) d d d' ∧
      Furnished (fun _ => False) (d.Inside (.site (.augment source))) d d d') fun _ _ => False := by
  have hhas : ∀ x, d.Inside (.site (.augment source)) x → d.HasItem x := fun x hx =>
    hd.hasItem_of_inside hx h
  have hnests := hd.nests_size (x := .site (.augment source)) h
  rw [copyAugment, ends_bind, ends_get]
  refine (((copies (fun _ _ => Inside.contains) hhas d.size).2.2 source d (.refl d) hd .refl hnests).and
    ((furnishes (fun _ _ => Inside.contains) hhas d.size).2.2 source d (.refl d) hd .refl hnests)).mono
    (fun _ _ h => ⟨h.1.1, h.2⟩) fun _ _ h => h.1

end Draft

end YangSchema
