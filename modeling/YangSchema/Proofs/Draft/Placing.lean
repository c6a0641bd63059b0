import YangSchema.Draft.Edit
import YangSchema.Proofs.Draft.Walk

/-!
# Attaching nodes

Attaching a node `c` to a site `s` gives the draft `attached d s c`, but for the paths of the nodes
in the subtree that is put there (`ends_attach`): these go on from the path of the site.  If the site
is a choice and the node no case, a shorthand case goes between them (`wraps`).  Attaching fails only
at a node that accepts no children, and then nothing is changed.
-/

namespace YangSchema

def NodeDraft.withPath (r : NodeDraft) (p : SchemaPath) : NodeDraft :=
  { r with facts := { r.facts with path := p } }

/-- Some steps further down. -/
def SchemaPath.down (p : SchemaPath) (steps : List QName) : SchemaPath :=
  { p with steps := p.steps ++ steps }

theorem SchemaPath.down_child (p : SchemaPath) (q : QName) (steps : List QName) :
    (p.child q).down steps = p.down (q :: steps) := by
  simp [down, child]

namespace Draft

variable {d d' d'' : Draft}

/-! ## Drafts that differ in paths only -/

structure Repathed (d d' : Draft) : Prop where
  rest : d' = { d with nodes := d'.nodes }
  size : d'.nodes.size = d.nodes.size
  node : ∀ j, d'.node j = (d.node j).withPath (d'.node j).path

namespace Repathed

theorem refl (d : Draft) : Repathed d d := ⟨rfl, rfl, fun _ => rfl⟩

theorem trans (h : Repathed d d') (h' : Repathed d' d'') : Repathed d d'' where
  rest := by
    rw [h'.rest, h.rest]
  size := h'.size.trans h.size
  node j := by
    rw [h'.node j, h.node j]
    rfl

variable (h : Repathed d d')
include h

theorem groupings : d'.groupings = d.groupings := by rw [h.rest]
theorem uses : d'.uses = d.uses := by rw [h.rest]
theorem augments : d'.augments = d.augments := by rw [h.rest]
theorem modules : d'.modules = d.modules := by rw [h.rest]

theorem grouping (i : GroupingId) : d'.grouping i = d.grouping i := by
  unfold Draft.grouping
  rw [h.groupings]

theorem usesOf (i : UsesId) : d'.usesOf i = d.usesOf i := by
  unfold Draft.usesOf
  rw [h.uses]

theorem augment (i : AugmentId) : d'.augment i = d.augment i := by
  unfold Draft.augment
  rw [h.augments]

theorem module (i : ModuleId) : d'.module i = d.module i := by
  unfold Draft.module
  rw [h.modules]

theorem name (i : NodeId) : (d'.node i).name = (d.node i).name := by rw [h.node i]; rfl
theorem parent (i : NodeId) : (d'.node i).parent = (d.node i).parent := by rw [h.node i]; rfl

theorem childrenOf (s : Site) : d'.childrenOf s = d.childrenOf s := by
  cases s with
  | module i => exact congrArg ModuleDraft.children (h.module i)
  | node i => show (d'.node i).children = _; rw [h.node i]; rfl
  | grouping i => exact congrArg GroupingDraft.children (h.grouping i)
  | augment i => exact congrArg AugmentDraft.children (h.augment i)

theorem usesAt (s : Site) : d'.usesAt s = d.usesAt s := by
  cases s with
  | module i => exact congrArg ModuleDraft.uses (h.module i)
  | node i => show (d'.node i).uses = _; rw [h.node i]; rfl
  | grouping i => exact congrArg GroupingDraft.uses (h.grouping i)
  | augment i => exact congrArg AugmentDraft.uses (h.augment i)

theorem contents (x : Item) : d'.contents x = d.contents x := by
  cases x with
  | site s => simp only [Draft.contents, h.childrenOf, h.usesAt]
  | uses u => simp only [Draft.contents, h.usesOf]

theorem sound (hd : d.Sound) (hd' : d'.Unfrozen) : d'.Sound where
  unfrozen := hd'
  parent_iff s c := by rw [h.childrenOf, h.parent]; exact hd.parent_iff s c
  uses_lt s u hu := by rw [h.uses]; exact hd.uses_lt s u (h.usesAt s ▸ hu)
  augment_lt u a ha := by rw [h.augments]; exact hd.augment_lt u a (h.usesOf u ▸ ha)
  wf := by
    have hc : d'.Contains = d.Contains := by
      funext y x
      unfold Contains
      rw [h.contents]
    rw [hc]
    exact hd.wf

end Repathed

/-! ## Giving paths -/

open Edit

/-- From `d` to `d'` the nodes of the subtree at `c` got the paths that go on from `above`, and no others
did.  The tree is that of `d₀`. -/
structure PathsGiven (d₀ d : Draft) (c : NodeId) (above : SchemaPath) (d' : Draft) : Prop where
  repathed : d₀.Repathed d'
  unfrozen : d'.Unfrozen
  outside : ∀ j, ¬ d₀.Under (.node j) (.node c) → d'.node j = d.node j
  inside : ∀ p j, d₀.Leads (.node c) p (.node j) →
    (d'.node j).path = above.down ((d₀.node c).name :: p)

/-- While the subtrees below `c` get their paths: `c` has its own, and so have the nodes in the subtrees
at `pre`. -/
structure GivingPaths (d₀ d : Draft) (c : NodeId) (above : SchemaPath) (pre : List NodeId)
    (d' : Draft) : Prop where
  repathed : d₀.Repathed d'
  unfrozen : d'.Unfrozen
  outside : ∀ j, j ≠ c → (∀ x ∈ pre, ¬ d₀.Under (.node j) (.node x)) → d'.node j = d.node j
  self : (d'.node c).path = above.child (d₀.node c).name
  inside : ∀ x ∈ pre, ∀ p j, d₀.Leads (.node x) p (.node j) →
    (d'.node j).path = (above.child (d₀.node c).name).down ((d₀.node x).name :: p)

namespace GivingPaths

variable {d₀ d₁ d₂ : Draft} {c x : NodeId} {above : SchemaPath} {pre : List NodeId}

/-- At first only `c` itself gets its path. -/
theorem start (above : SchemaPath) (hdd : d₀.Repathed d) (hu : d.Unfrozen) (hc : c.index < d.nodes.size) :
    GivingPaths d₀ d c above [] (d.mapNode c fun r =>
      { r with facts := { r.facts with path := above.child r.name } }) where
  repathed := by
    refine hdd.trans ⟨rfl, Shelf.size_update _ _ _, fun j => ?_⟩
    rw [node_mapNode]
    split <;> rfl
  unfrozen := hu.mapNode c _
  outside j hj _ := node_mapNode_of_ne (Ne.symm hj) _
  self := by
    rw [node_mapNode_self hc, ← hdd.name c]
    rfl
  inside x hx := absurd hx List.not_mem_nil

/-- The next subtree gets its paths; it has no node of the subtrees before it. -/
theorem snoc (hd : d₀.Sound) (h : GivingPaths d₀ d c above pre d₁)
    (hpre : ∀ y ∈ pre, y ∈ d₀.childrenOf (.node c)) (hx : x ∈ d₀.childrenOf (.node c))
    (hgiven : PathsGiven d₀ d₁ x (above.child (d₀.node c).name) d₂) :
    GivingPaths d₀ d c above (pre ++ [x]) d₂ where
  repathed := hgiven.repathed
  unfrozen := hgiven.unfrozen
  outside j hj hout := by
    rw [hgiven.outside j (hout x (by simp))]
    exact h.outside j hj fun y hy => hout y (by simp [hy])
  self := by
    rw [hgiven.outside c (hd.not_under_child (hd.parent_eq hx))]
    exact h.self
  inside y hy p j hp := by
    by_cases hjx : d₀.Under (.node j) (.node x)
    · -- both ways lead from `c` to `j`
      obtain ⟨p', hp'⟩ := Leads.exists_of_under hd hjx
      have hyc : y ∈ d₀.childrenOf (.node c) := by
        rcases List.mem_append.1 hy with hy | hy
        · exact hpre y hy
        · exact List.mem_singleton.1 hy ▸ hx
      have heq := (Leads.cons hyc hp).path_unique hd (Leads.cons hx hp')
      rw [heq]
      exact hgiven.inside p' j hp'
    · have hyx : y ≠ x := by
        rintro rfl
        exact hjx (hp.under hd)
      rw [hgiven.outside j hjx]
      exact h.inside y (by simpa [hyx] using hy) p j hp

theorem finish (hd : d₀.Sound) (h : GivingPaths d₀ d c above (d₀.childrenOf (.node c)) d₁) :
    PathsGiven d₀ d c above d₁ where
  repathed := h.repathed
  unfrozen := h.unfrozen
  outside j hj := by
    refine h.outside j (fun heq => hj (heq ▸ .refl _)) fun x hx hjx => hj ?_
    exact hjx.trans (.up (hd.parent_eq hx) (.refl _))
  inside p j hp := by
    cases hp with
    | nil => exact h.self
    | @cons _ _ x p hx hp => rw [h.inside x hx p j hp, SchemaPath.down_child]

end GivingPaths

/-- Repathing succeeds, and reaches the nodes of the subtree and no others. -/
theorem ends_repath {d₀ : Draft} (hd : d₀.Sound) (fuel : Nat) :
    ∀ (c : NodeId) (above : SchemaPath) (d : Draft), d₀.Repathed d → d.Unfrozen →
      c.index < d.nodes.size → Nests (fun c i => c ∈ d₀.childrenOf (.node i)) fuel c →
      Ends (repath fuel c above) d (fun _ d' => PathsGiven d₀ d c above d') fun _ _ => False := by
  induction fuel with
  | zero =>
    intro c above d _ _ _ hfuel
    cases hfuel
  | succ fuel ih =>
    intro c above d hdd hu hc hfuel
    have hstart := GivingPaths.start above hdd hu hc
    unfold repath
    rw [ends_bind, ends_editNode hu, ends_bind, ends_get]
    generalize d.mapNode c _ = d₁ at hstart
    have hchildren : (d₁.node c).children = d₀.childrenOf (.node c) :=
      hstart.repathed.childrenOf (.node c)
    dsimp only
    rw [hchildren, hstart.self]
    refine (ends_forM (I := fun pre d' => GivingPaths d₀ d c above pre d') _ hstart ?_).mono
      (fun _ _ h => h.finish hd) fun _ _ hE => hE
    intro pre x post d' hl h
    have hmem : x ∈ d₀.childrenOf (.node c) := by rw [hl]; simp
    have hx : x.index < d'.nodes.size := by
      rw [h.repathed.size]
      exact hd.child_lt hmem
    refine (ih x _ d' h.repathed h.unfrozen hx (hfuel.down hmem)).mono ?_ fun _ _ hE => hE
    exact fun _ _ hgiven => h.snoc hd (fun y hy => by rw [hl]; simp [hy]) hmem hgiven

/-! ## Placing -/

/-- The draft with a node at the end of the children of a site. -/
def placed (d : Draft) (s : Site) (c : NodeId) : Draft :=
  (d.mapChildren s (· ++ [c])).mapNode c fun r => { r with parent := some s }

/-- `c` hangs nowhere, and all that it contains is among `N`. -/
structure Loose (d : Draft) (N : Item → Prop) (c : NodeId) : Prop where
  lt : c.index < d.nodes.size
  parent : (d.node c).parent = none
  mem : N (.site (.node c))
  closed : ∀ x y, N x → d.Contains y x → N y

/-- What placing the node `c` at the site `s` makes of a draft. -/
structure Placed (d : Draft) (s : Site) (c : NodeId) (d' : Draft) : Prop where
  sound : d'.Sound
  size : d'.nodes.size = d.nodes.size
  groupings_size : d'.groupings.size = d.groupings.size
  uses : d'.uses = d.uses
  augments_size : d'.augments.size = d.augments.size
  modules_size : d'.modules.size = d.modules.size
  children_self : d'.childrenOf s = d.childrenOf s ++ [c]
  children_of_ne : ∀ t, t ≠ s → d'.childrenOf t = d.childrenOf t
  usesAt : ∀ t, d'.usesAt t = d.usesAt t
  node : ∀ j, d'.node j = { (d.node j).withPath (d'.node j).path with
    parent := if j = c then some s else (d.node j).parent
    children := d'.childrenOf (.node j) }
  path_outside : ∀ j, ¬ d.Under (.node j) (.node c) → (d'.node j).path = (d.node j).path
  path_inside : ∀ p j, d.Leads (.node c) p (.node j) →
    (d'.node j).path = (d.pathOf s).down ((d.node c).name :: p)
  grouping : ∀ g, d'.grouping g = { d.grouping g with children := d'.childrenOf (.grouping g) }
  augment : ∀ a, d'.augment a = { d.augment a with children := d'.childrenOf (.augment a) }
  module : ∀ m, d'.module m = { d.module m with children := d'.childrenOf (.module m) }

section Placed

variable {s : Site} {c : NodeId} {N : Item → Prop}

/-- Listing a node and naming its parent, with no path given yet. -/
theorem ends_hang {Q : Unit → Draft → Prop} {E : Fault → Draft → Prop} (hu : d.Unfrozen) :
    Ends (do
      editChildren s (· ++ [c])
      editNode c fun r => { r with parent := some s }) d Q E ↔ Q () (d.placed s c) := by
  rw [ends_bind, ends_editChildren hu, ends_editNode (hu.mapChildren s _)]
  rfl

theorem childrenOf_placed (t : Site) :
    (d.placed s c).childrenOf t = (d.mapChildren s (· ++ [c])).childrenOf t := by
  unfold placed
  cases t with
  | node j =>
    show ((Draft.mapNode _ c _).node j).children = _
    rw [node_mapNode]
    split <;> rfl
  | _ => rfl

theorem childrenOf_placed_self (hs : d.HasSite s) :
    (d.placed s c).childrenOf s = d.childrenOf s ++ [c] := by
  rw [childrenOf_placed, childrenOf_mapChildren_self hs]

theorem childrenOf_placed_of_ne {t : Site} (ht : t ≠ s) :
    (d.placed s c).childrenOf t = d.childrenOf t := by
  rw [childrenOf_placed, childrenOf_mapChildren_of_ne (Ne.symm ht)]

theorem usesAt_placed (t : Site) : (d.placed s c).usesAt t = d.usesAt t := by
  refine Eq.trans ?_ (usesAt_mapChildren s t (· ++ [c]))
  unfold placed
  cases t with
  | node j =>
    show ((Draft.mapNode _ c _).node j).uses = _
    rw [node_mapNode]
    split <;> rfl
  | _ => rfl

theorem node_placed (hc : c.index < d.nodes.size) (j : NodeId) :
    (d.placed s c).node j = { d.node j with
      parent := if j = c then some s else (d.node j).parent
      children := (d.placed s c).childrenOf (.node j) } := by
  rw [childrenOf_placed]
  unfold placed
  rw [node_mapNode, node_mapChildren]
  by_cases hj : j = c
  · subst hj
    rw [if_pos ⟨rfl, by rw [(sizes_mapChildren s _).1]; exact hc⟩, if_pos rfl]
  · rw [if_neg fun h => hj h.1.symm, if_neg hj]

theorem usesOf_placed (u : UsesId) : (d.placed s c).usesOf u = d.usesOf u := by
  show (d.mapChildren s _).uses.read u.index = _
  rw [(sizes_mapChildren s _).2.2.1]
  rfl

theorem contains_placed (hs : d.HasSite s) {x y : Item} :
    (d.placed s c).Contains y x ↔ d.Contains y x ∨ x = .site s ∧ y = .site (.node c) := by
  cases x with
  | site t =>
    rw [contains_site, contains_site, usesAt_placed]
    by_cases ht : t = s
    · subst ht
      rw [childrenOf_placed_self hs]
      constructor
      · rintro (⟨x, hx, rfl⟩ | hu)
        · rcases List.mem_append.1 hx with hx | hx
          · exact .inl (.inl ⟨x, hx, rfl⟩)
          · exact .inr ⟨rfl, by rw [List.mem_singleton.1 hx]⟩
        · exact .inl (.inr hu)
      · rintro ((⟨x, hx, rfl⟩ | hu) | ⟨-, rfl⟩)
        · exact .inl ⟨x, List.mem_append_left _ hx, rfl⟩
        · exact .inr hu
        · exact .inl ⟨c, by simp, rfl⟩
    · rw [childrenOf_placed_of_ne ht]
      constructor
      · exact .inl
      · rintro (h | ⟨h, -⟩)
        · exact h
        · cases h
          exact absurd rfl ht
  | uses u =>
    rw [contains_uses, contains_uses, usesOf_placed]
    simp

theorem Loose.closed_sites (hc : d.Loose N c) (t : Site) (i : NodeId) (hi : i ∈ d.childrenOf t)
    (ht : N (.site t)) : N (.site (.node i)) :=
  hc.closed _ _ ht (contains_site.2 (.inl ⟨i, hi, rfl⟩))

theorem not_under_of_loose (hd : d.Sound) (hc : d.Loose N c) (hN : ¬ N (.site s)) :
    ¬ d.Under s (.node c) := by
  intro h
  suffices H : ∀ x, d.Under x (.node c) → N (.site x) from hN (H s h)
  intro x hx
  generalize ht : Site.node c = t at hx
  induction hx with
  | refl => exact ht ▸ hc.mem
  | up hp _ ih =>
    exact hc.closed_sites _ _ ((hd.parent_iff _ _).2 hp) (ih ht)

theorem Sound.placed (hd : d.Sound) (hs : d.HasSite s) (hc : d.Loose N c) (hN : ¬ N (.site s)) :
    (d.placed s c).Sound where
  unfrozen := (hd.unfrozen.mapChildren s _).mapNode c _
  parent_iff t x := by
    rw [node_placed hc.lt]
    show x ∈ _ ↔ (if x = c then some s else (d.node x).parent) = some t
    have hcd : ∀ t, c ∉ d.childrenOf t := by
      intro t ht
      have hparent := hc.parent
      rw [hd.parent_eq ht] at hparent
      cases hparent
    by_cases hx : x = c
    · subst hx
      rw [if_pos rfl]
      by_cases ht : t = s
      · subst ht
        simp [childrenOf_placed_self hs]
      · rw [childrenOf_placed_of_ne ht]
        simp [hcd t, Ne.symm ht]
    · rw [if_neg hx]
      by_cases ht : t = s
      · subst ht
        rw [childrenOf_placed_self hs]
        simp [hx, hd.parent_iff]
      · rw [childrenOf_placed_of_ne ht]
        exact hd.parent_iff t x
  uses_lt t u hu := by
    rw [usesAt_placed] at hu
    show u.index < (d.mapChildren s _).uses.size
    rw [(sizes_mapChildren s _).2.2.1]
    exact hd.uses_lt t u hu
  augment_lt u a ha := by
    rw [usesOf_placed] at ha
    show a.index < (d.mapChildren s _).augments.size
    rw [(sizes_mapChildren s _).2.2.2.1]
    exact hd.augment_lt u a ha
  wf := by
    refine wellFounded_of_new hd.wf N (fun x y hx hy => ?_) fun x y hy => ?_
    · rcases (contains_placed hs).1 hy with h | ⟨rfl, -⟩
      · exact ⟨hc.closed x y hx h, h⟩
      · exact absurd hx hN
    · rcases (contains_placed hs).1 hy with h | ⟨-, rfl⟩
      · exact .inr h
      · exact .inl hc.mem

theorem under_placed_iff (hc : c.index < d.nodes.size) {x : Site} :
    (d.placed s c).Under x (.node c) ↔ d.Under x (.node c) := by
  have hparent : ∀ i, i ≠ c → ((d.placed s c).node i).parent = (d.node i).parent := by
    intro i hi
    rw [node_placed hc]
    exact if_neg hi
  generalize ht : Site.node c = t
  constructor
  · intro h
    induction h with
    | refl => exact .refl _
    | @up i p _ hp _ ih =>
      by_cases hi : i = c
      · rw [hi, ht]
        exact .refl _
      · exact .up (hparent i hi ▸ hp) (ih ht)
  · intro h
    induction h with
    | refl => exact .refl _
    | @up i p _ hp _ ih =>
      by_cases hi : i = c
      · rw [hi, ht]
        exact .refl _
      · exact .up ((hparent i hi).trans hp) (ih ht)

/-- Placing a loose node below a site that it does not contain succeeds. -/
theorem ends_place (hd : d.Sound) (hs : d.HasSite s) (hc : d.Loose N c) (hN : ¬ N (.site s)) :
    Ends (place s c) d (fun _ d' => d.Placed s c d') fun _ _ => False := by
  have hsound := hd.placed hs hc hN
  have hlt : c.index < (d.placed s c).nodes.size := by
    show _ < Shelf.size (Shelf.update _ _ _)
    rw [Shelf.size_update, (sizes_mapChildren s _).1]
    exact hc.lt
  unfold place
  rw [ends_bind, ends_get, ends_bind, ends_editChildren hd.unfrozen, ends_bind,
    ends_editNode (hd.unfrozen.mapChildren s _), ends_bind, ends_get]
  refine (ends_repath hsound _ c (d.pathOf s) (d.placed s c) (.refl _) hsound.unfrozen hlt
    (hsound.nests_nodes hlt)).mono ?_ fun _ _ hE => hE
  rintro - d' ⟨hre, hu', hout, hin⟩
  have hname : ((d.placed s c).node c).name = (d.node c).name := by
    rw [node_placed hc.lt]
    rfl
  obtain ⟨h₁, h₂, h₃, h₄, h₅⟩ := d.sizes_mapChildren s (· ++ [c])
  refine {
    sound := hre.sound hsound hu'
    size := hre.size.trans ((Shelf.size_update _ _ _).trans h₁)
    groupings_size := (congrArg Shelf.size hre.groupings).trans h₂
    uses := hre.uses.trans h₃
    augments_size := (congrArg Shelf.size hre.augments).trans h₄
    modules_size := (congrArg Shelf.size hre.modules).trans h₅
    children_self := (hre.childrenOf s).trans (childrenOf_placed_self hs)
    children_of_ne := fun t ht => (hre.childrenOf t).trans (childrenOf_placed_of_ne ht)
    usesAt := fun t => (hre.usesAt t).trans (usesAt_placed t)
    node := fun j => ?_
    path_outside := fun j hj => ?_
    path_inside := fun p j hp => ?_
    grouping := fun g => ?_
    augment := fun a => ?_
    module := fun m => ?_ }
  · rw [hre.childrenOf, hre.node j, node_placed hc.lt]
    rfl
  · rw [hout j fun h => hj ((under_placed_iff hc.lt).1 h), node_placed hc.lt]
    rfl
  · have hp' : (d.placed s c).Leads (.node c) p (.node j) := by
      refine (hp.of_closed (N := fun t => N (.site t)) hc.closed_sites
        (fun t ht => childrenOf_placed_of_ne ?_) (fun i _ => ?_) hc.mem).2
      · rintro rfl
        exact hN ht
      · rw [node_placed hc.lt]
        rfl
    rw [hin p j hp', hname]
  · rw [hre.grouping, hre.childrenOf]
    exact (grouping_mapChildren s _ g).trans (by rw [childrenOf_placed])
  · rw [hre.augment, hre.childrenOf]
    exact (augment_mapChildren s _ a).trans (by rw [childrenOf_placed])
  · rw [hre.module, hre.childrenOf]
    exact (module_mapChildren s _ m).trans (by rw [childrenOf_placed])

end Placed

/-! ## Attaching -/

/-- Whether a shorthand case goes between a site and a node that is attached there. -/
def wraps (d : Draft) (s : Site) (c : NodeId) : Bool :=
  match s with
  | .node p => (d.node p).kind.isChoice && !(d.node c).kind.isCase
  | _ => false

/-- Whether the site is a choice. -/
def isChoice (d : Draft) : Site → Bool
  | .node i => (d.node i).kind.isChoice
  | _ => false

/-- Where nodes keep their kinds, choices stay choices. -/
theorem isChoice_congr {s : Site}
    (hkind : ∀ i, i.index < d.nodes.size → (d'.node i).kind = (d.node i).kind) (hs : d.HasSite s) :
    d'.isChoice s = d.isChoice s := by
  cases s with
  | node i => exact congrArg NodeKind.isChoice (hkind i hs)
  | _ => rfl

theorem wraps_eq (d : Draft) (s : Site) (x : NodeId) :
    d.wraps s x = (d.isChoice s && !(d.node x).kind.isCase) := by
  cases s <;> rfl

/-- Whether nodes may be attached to a site. -/
def accepts (d : Draft) : Site → Bool
  | .node p => (d.node p).kind.acceptsChildren
  | _ => true

/-- What attaching the node `c` to the site `s` makes of a draft; `r` is the node that then stands
there. -/
structure Attached (d : Draft) (s : Site) (c r : NodeId) (d' : Draft) : Prop where
  sound : d'.Sound
  groupings_size : d'.groupings.size = d.groupings.size
  uses : d'.uses = d.uses
  augments_size : d'.augments.size = d.augments.size
  modules_size : d'.modules.size = d.modules.size
  children_self : d'.childrenOf s = d.childrenOf s ++ [r]
  children_of_ne : ∀ t, t ≠ .node ⟨d.nodes.size⟩ → t ≠ s → d'.childrenOf t = d.childrenOf t
  usesAt : ∀ t, d'.usesAt t = d.usesAt t
  node : ∀ j, j.index < d.nodes.size →
    d'.node j = { (d.node j).withPath (d'.node j).path with
      parent := if j = c then some (if d.wraps s c then .node r else s) else (d.node j).parent
      children := d'.childrenOf (.node j) }
  path_outside : ∀ j, j.index < d.nodes.size → ¬ d.Under (.node j) (.node c) →
    (d'.node j).path = (d.node j).path
  path_inside : ∀ p j, d.Leads (.node c) p (.node j) → (d'.node j).path = (d.pathOf s).down
    (if d.wraps s c then (d.node c).name :: (d.node c).name :: p else (d.node c).name :: p)
  direct : d.wraps s c = false → r = c ∧ d'.nodes.size = d.nodes.size
  wrapper : d.wraps s c = true → r = ⟨d.nodes.size⟩ ∧ d'.nodes.size = d.nodes.size + 1 ∧
    d'.node r = { (shorthandFor (d.node c)).withPath ((d.pathOf s).child (d.node c).name) with
      children := [c], parent := some s }
  grouping : ∀ g, d'.grouping g = { d.grouping g with children := d'.childrenOf (.grouping g) }
  augment : ∀ a, d'.augment a = { d.augment a with children := d'.childrenOf (.augment a) }
  module : ∀ m, d'.module m = { d.module m with children := d'.childrenOf (.module m) }

namespace Attached

variable {s : Site} {c r i : NodeId} (h : d.Attached s c r d')
include h

theorem children_of_hasSite {t : Site} (ht : d.HasSite t) (hne : t ≠ s) :
    d'.childrenOf t = d.childrenOf t := by
  refine h.children_of_ne t ?_ hne
  rintro rfl
  exact Nat.lt_irrefl _ ht

theorem nodes_le : d.nodes.size ≤ d'.nodes.size := by
  cases hw : d.wraps s c with
  | false => rw [(h.direct hw).2]
  | true => rw [(h.wrapper hw).2.1]; exact Nat.le_succ _

/-- The only new node is the shorthand case, if there is one. -/
theorem eq_of_new (hi : d.nodes.size ≤ i.index) (hlt : i.index < d'.nodes.size) :
    i = r ∧ d.wraps s c = true := by
  cases hw : d.wraps s c with
  | false => exact absurd hi (Nat.not_le.2 ((h.direct hw).2 ▸ hlt))
  | true =>
    obtain ⟨hr, hsize, -⟩ := h.wrapper hw
    refine ⟨?_, rfl⟩
    rw [hsize] at hlt
    rw [hr]
    cases i
    exact congrArg NodeId.mk (Nat.le_antisymm (Nat.le_of_lt_succ hlt) hi)

/-- What a node that is attached brings into the lists. -/
theorem contains_iff {x y : Item} (hx : x ≠ .site (.node ⟨d.nodes.size⟩)) :
    d'.Contains y x ↔ d.Contains y x ∨ x = .site s ∧ y = .site (.node r) := by
  cases x with
  | uses u =>
    have huses : d'.usesOf u = d.usesOf u := by
      unfold usesOf
      rw [h.uses]
    rw [contains_uses, contains_uses, huses]
    simp
  | site t =>
    have hnew : t ≠ .node ⟨d.nodes.size⟩ := fun ht => hx (congrArg Item.site ht)
    rw [contains_site, contains_site, h.usesAt]
    by_cases hts : t = s
    · subst hts
      rw [h.children_self]
      constructor
      · rintro (⟨i, hi, rfl⟩ | hu)
        · rcases List.mem_append.1 hi with hi | hi
          · exact .inl (.inl ⟨i, hi, rfl⟩)
          · exact .inr ⟨rfl, by rw [List.mem_singleton.1 hi]⟩
        · exact .inl (.inr hu)
      · rintro ((⟨i, hi, rfl⟩ | hu) | ⟨-, rfl⟩)
        · exact .inl ⟨i, List.mem_append_left _ hi, rfl⟩
        · exact .inr hu
        · exact .inl ⟨r, List.mem_append_right _ List.mem_cons_self, rfl⟩
    · rw [h.children_of_ne t hnew hts]
      have hne : Item.site t ≠ .site s := fun heq => hts (Item.site.inj heq)
      simp [hne]

theorem name (hi : i.index < d.nodes.size) : (d'.node i).name = (d.node i).name := by
  rw [h.node i hi]
  rfl

theorem kind (hi : i.index < d.nodes.size) : (d'.node i).kind = (d.node i).kind := by
  rw [h.node i hi]
  rfl

theorem parent_of_ne (hi : i.index < d.nodes.size) (hne : i ≠ c) :
    (d'.node i).parent = (d.node i).parent := by
  rw [h.node i hi]
  exact if_neg hne

theorem parent_self (hc : c.index < d.nodes.size) :
    (d'.node c).parent = some (if d.wraps s c then .node r else s) := by
  rw [h.node c hc]
  exact if_pos rfl

theorem parent_wrapper (hw : d.wraps s c = true) : (d'.node r).parent = some s := by
  rw [(h.wrapper hw).2.2]

theorem children_wrapper (hw : d.wraps s c = true) : d'.childrenOf (.node r) = [c] :=
  congrArg NodeDraft.children (h.wrapper hw).2.2

/-- The children are those that there were, what stands at the site now, and the node in the shorthand
case. -/
theorem mem_childrenOf {t : Site} (hi : i ∈ d'.childrenOf t) :
    i ∈ d.childrenOf t ∨ t = s ∧ i = r ∨ t = .node r ∧ i = c ∧ d.wraps s c = true := by
  by_cases htw : t = .node ⟨d.nodes.size⟩
  · subst htw
    have hlt : d.nodes.size < d'.nodes.size := hasSite_of_mem_childrenOf hi
    obtain ⟨rfl, hw⟩ := h.eq_of_new (i := ⟨d.nodes.size⟩) (Nat.le_refl _) hlt
    rw [h.children_wrapper hw] at hi
    exact .inr (.inr ⟨rfl, List.mem_singleton.1 hi, hw⟩)
  by_cases hts : t = s
  · subst hts
    rw [h.children_self] at hi
    exact (List.mem_append.1 hi).imp_right fun hi => .inl ⟨rfl, List.mem_singleton.1 hi⟩
  · rw [h.children_of_ne t htw hts] at hi
    exact .inl hi

theorem name_wrapper (hw : d.wraps s c = true) : (d'.node r).name = (d.node c).name := by
  rw [(h.wrapper hw).2.2]
  rfl

/-- The shorthand case has the path of its place. -/
theorem path_wrapper (hw : d.wraps s c = true) :
    (d'.node r).path = (d.pathOf s).child (d'.node r).name := by
  rw [(h.wrapper hw).2.2]
  rfl

/-- So has the node, in the site or in the shorthand case. -/
theorem path_self (hc : c.index < d.nodes.size) (hs : d'.pathOf s = d.pathOf s) : (d'.node c).path =
    (d'.pathOf (if d.wraps s c then .node r else s)).child (d'.node c).name := by
  rw [h.path_inside [] c (.nil _), h.name hc]
  cases hw : d.wraps s c with
  | false => exact congrArg (SchemaPath.child · _) hs.symm
  | true =>
    show _ = (d'.node r).path.child _
    rw [h.path_wrapper hw, h.name_wrapper hw]
    simp [SchemaPath.down, SchemaPath.child]

end Attached

section Attaching

variable {s : Site} {c : NodeId} {N : Item → Prop}

theorem Placed.attached (h : d.Placed s c d') (hw : d.wraps s c = false) : d.Attached s c c d' where
  sound := h.sound
  groupings_size := h.groupings_size
  uses := h.uses
  augments_size := h.augments_size
  modules_size := h.modules_size
  children_self := h.children_self
  children_of_ne t _ ht := h.children_of_ne t ht
  usesAt := h.usesAt
  node j _ := by simpa [hw] using h.node j
  path_outside j _ hj := h.path_outside j hj
  path_inside p j hp := by simpa [hw] using h.path_inside p j hp
  direct _ := ⟨rfl, h.size⟩
  wrapper h := by simp [h] at hw
  grouping := h.grouping
  augment := h.augment
  module := h.module

/-- A new node that holds nothing is loose. -/
theorem loose_withNode {r : NodeDraft} (hc : r.children = []) (hu : r.uses = [])
    (hp : r.parent = none) :
    (d.withNode r).Loose (· = .site (.node ⟨d.nodes.size⟩)) ⟨d.nodes.size⟩ where
  lt := Shelf.lt_size_push _ _
  parent := by rw [node_withNode_self, hp]
  mem := rfl
  closed x y hx hy := by
    rw [contains_withNode hc hu] at hy
    exact absurd (hx ▸ hasItem_of_contains hy) (Nat.lt_irrefl _)

/-! ### Around a node that is there

A new node was placed first, to hold one that is there: this one is as it was. -/

namespace Placed

variable {r : NodeDraft} (h : (d.withNode r).Placed s ⟨d.nodes.size⟩ d')
include h

theorem parent_old {j : NodeId} (hj : j.index < d.nodes.size) :
    (d'.node j).parent = (d.node j).parent := by
  rw [h.node, (Extends.withNode d r).node j hj]
  refine if_neg ?_
  rintro rfl
  exact Nat.lt_irrefl _ hj

theorem name_old {j : NodeId} (hj : j.index < d.nodes.size) : (d'.node j).name = (d.node j).name := by
  rw [h.node, (Extends.withNode d r).node j hj]
  rfl

theorem under_old (hd : d.Sound) {t x : Site} (ht : d.HasSite t) : d'.Under t x ↔ d.Under t x :=
  hd.under_iff_of_parent (fun _ hj => h.parent_old hj) ht

theorem path_old (hd : d.Sound) {j : NodeId} (hj : j.index < d.nodes.size) :
    (d'.node j).path = (d.node j).path := by
  have hx : d.HasSite (.node j) := hj
  have he := Extends.withNode d r
  rw [h.path_outside j fun hu => ?_, he.node j hj]
  rw [hd.under_iff_of_parent (fun i hi => by rw [he.node i hi]) hx] at hu
  exact Nat.lt_irrefl _ (hd.hasSite_above hu hx)

theorem childrenOf_old (hc : r.children = []) {t : Site} (hts : t ≠ s) :
    d'.childrenOf t = d.childrenOf t := by
  rw [h.children_of_ne t hts, childrenOf_withNode hc]

/-- What is loose stays loose. -/
theorem loose_old (hrc : r.children = []) (hru : r.uses = []) (hc : d.Loose N c)
    (hN : ¬ N (.site s)) : d'.Loose N c where
  lt := by
    rw [h.size]
    exact Nat.lt_trans hc.lt (Shelf.lt_size_push _ _)
  parent := (h.parent_old hc.lt).trans hc.parent
  mem := hc.mem
  closed x y hx hy := by
    refine hc.closed x y hx ?_
    cases x with
    | site t =>
      have hts : t ≠ s := by
        rintro rfl
        exact hN hx
      rw [contains_site] at hy ⊢
      rwa [h.childrenOf_old hrc hts, h.usesAt, usesAt_withNode hru] at hy
    | uses u =>
      rw [contains_uses] at hy ⊢
      rwa [usesOf, h.uses] at hy

end Placed

/-- A shorthand case was placed, and then the node in it. -/
theorem Placed.attached_wrapped {d₂ : Draft} (hd : d.Sound) (hs : d.HasSite s) (hc : d.Loose N c)
    (hN : ¬ N (.site s)) (hhas : ∀ x, N x → d.HasItem x) (hw : d.wraps s c = true)
    (h₂ : (d.withNode (shorthandFor (d.node c))).Placed s ⟨d.nodes.size⟩ d₂)
    (h₃ : d₂.Placed (.node ⟨d.nodes.size⟩) c d') : d.Attached s c ⟨d.nodes.size⟩ d' := by
  have he : d.Extends (d.withNode (shorthandFor (d.node c))) := .withNode d _
  have hself : (d.withNode (shorthandFor (d.node c))).node ⟨d.nodes.size⟩ = shorthandFor (d.node c) :=
    node_withNode_self _
  have hnew : ∀ t, d.HasSite t → t ≠ .node ⟨d.nodes.size⟩ := by
    rintro t ht rfl
    exact Nat.lt_irrefl _ ht
  have hwc : (⟨d.nodes.size⟩ : NodeId) ≠ c := fun h => hnew (.node c) hc.lt (by rw [h])
  -- the case does not hang below the node that is put into it
  have hout : ¬ d₂.Under (.node ⟨d.nodes.size⟩) (.node c) := by
    intro h
    cases h with
    | refl => exact hwc rfl
    | up hp h =>
      rw [h₂.node, if_pos rfl] at hp
      cases hp
      exact not_under_of_loose hd hc hN ((h₂.under_old hd hs).1 h)
  have hpath : (d₂.node ⟨d.nodes.size⟩).path = (d.pathOf s).child (d.node c).name := by
    rw [h₂.path_inside [] _ (.nil _), he.pathOf hs, hself]
    rfl
  have hchildren : d'.childrenOf (.node ⟨d.nodes.size⟩) = [c] := by
    rw [h₃.children_self, h₂.childrenOf_old rfl (Ne.symm (hnew s hs)),
      childrenOf_of_not_hasSite (Nat.lt_irrefl _)]
    rfl
  refine {
    sound := h₃.sound
    groupings_size := by rw [h₃.groupings_size, h₂.groupings_size, he.groupings_size]
    uses := by rw [h₃.uses, h₂.uses]; rfl
    augments_size := by rw [h₃.augments_size, h₂.augments_size]; rfl
    modules_size := by rw [h₃.modules_size, h₂.modules_size, he.modules_size]
    children_self := by
      rw [h₃.children_of_ne s (hnew s hs), h₂.children_self, childrenOf_withNode rfl]
    children_of_ne := fun t ht hts => by rw [h₃.children_of_ne t ht, h₂.childrenOf_old rfl hts]
    usesAt := fun t => by rw [h₃.usesAt, h₂.usesAt, usesAt_withNode rfl]
    node := fun j hj => ?_
    path_outside := fun j hj h => ?_
    path_inside := fun p j hp => ?_
    direct := fun h => by rw [h] at hw; cases hw
    wrapper := fun _ => ⟨rfl, by rw [h₃.size, h₂.size]; exact Shelf.size_push _ _, ?_⟩
    grouping := fun g => by rw [h₃.grouping, h₂.grouping, he.grouping]
    augment := fun a => by rw [h₃.augment, h₂.augment]; rfl
    module := fun m => by rw [h₃.module, h₂.module, he.module] }
  · rw [if_pos hw, h₃.node j, h₂.parent_old hj, h₂.node j, he.node j hj]
    rfl
  · rw [h₃.path_outside j fun h' => h ((h₂.under_old (t := .node j) hd hj).1 h')]
    exact h₂.path_old hd hj
  · have hp₂ : d₂.Leads (.node c) p (.node j) := by
      refine (hp.of_closed (N := fun t => N (.site t)) hc.closed_sites (fun t ht => ?_)
        (fun i hi => h₂.name_old (hhas _ hi)) hc.mem).2
      refine h₂.childrenOf_old rfl ?_
      rintro rfl
      exact hN ht
    rw [if_pos hw, h₃.path_inside p j hp₂, h₂.name_old hc.lt]
    show (d₂.node ⟨d.nodes.size⟩).path.down _ = _
    rw [hpath, SchemaPath.down_child]
  · rw [h₃.node, hchildren, h₃.path_outside _ hout, hpath, if_neg hwc, h₂.node, if_pos rfl, hself]
    rfl

theorem ends_placeWrapped (hd : d.Sound) (hs : d.HasSite s) (hc : d.Loose N c) (hN : ¬ N (.site s))
    (hhas : ∀ x, N x → d.HasItem x) (hw : d.wraps s c = true) :
    Ends (do
      let wrapper ← addNode (shorthandFor (d.node c))
      place s wrapper
      place (.node wrapper) c
      return wrapper) d (fun r d' => d.Attached s c r d') fun _ _ => False := by
  have he : d.Extends (d.withNode (shorthandFor (d.node c))) := .withNode d _
  have hw₁ := loose_withNode (d := d) (r := shorthandFor (d.node c)) rfl rfl rfl
  rw [ends_bind, ends_addNode, ends_bind]
  refine (ends_place (hd.withNode rfl rfl rfl) (he.hasSite hs) hw₁ ?_).mono ?_ fun _ _ hE => hE
  · rintro ⟨⟩
    exact Nat.lt_irrefl _ hs
  rintro - d₂ h₂
  have hs₂ : d₂.HasSite (.node ⟨d.nodes.size⟩) := by
    show d.nodes.size < d₂.nodes.size
    rw [h₂.size]
    exact Shelf.lt_size_push _ _
  rw [ends_bind]
  refine (ends_place h₂.sound hs₂ (h₂.loose_old rfl rfl hc hN) fun h => ?_).mono ?_
    fun _ _ hE => hE
  · exact Nat.lt_irrefl _ (hhas _ h)
  rintro - d₃ h₃
  rw [ends_pure]
  exact Placed.attached_wrapped hd hs hc hN hhas hw h₂ h₃

/-- Attaching a loose node below a site that it does not contain. -/
theorem ends_attach (hd : d.Sound) (hs : d.HasSite s) (hc : d.Loose N c) (hN : ¬ N (.site s))
    (hhas : ∀ x, N x → d.HasItem x) :
    Ends (attach s c) d (fun r d' => d.accepts s = true ∧ d.Attached s c r d')
      fun f d' => d.accepts s = false ∧ d' = d ∧ ∃ k p k', f = .malformed (.cannotContain k p k') := by
  have hplace : ∀ {E : Fault → Draft → Prop}, d.accepts s = true → d.wraps s c = false →
      Ends (do place s c; return c) d (fun r d' => d.accepts s = true ∧ d.Attached s c r d') E := by
    intro E ha hw
    rw [ends_bind]
    refine (ends_place hd hs hc hN).mono (fun _ d' h => ?_) fun _ _ hE => hE.elim
    exact ⟨ha, h.attached hw⟩
  unfold attach
  rw [ends_bind, ends_get]
  cases s with
  | node p =>
    dsimp only
    split
    · next hacc =>
      rw [ends_bind, ends_throw]
      exact ⟨by simpa [accepts] using hacc, rfl, _, _, _, rfl⟩
    · next hacc =>
      have ha : d.accepts (.node p) = true := by simpa [accepts] using hacc
      split
      · next hw =>
        refine (ends_placeWrapped hd hs hc hN hhas hw).mono (fun _ d' h => ⟨ha, h⟩)
          fun _ _ hE => hE.elim
      · next hw => exact hplace ha (by simpa [wraps] using hw)
  | module i => exact hplace rfl rfl
  | grouping i => exact hplace rfl rfl
  | augment i => exact hplace rfl rfl

end Attaching

/-! ## Drafts with more records -/

/-- Attaching a new node changes no record but for its children. -/
theorem Attached.node_of_lt {r : NodeId} {d₂ : Draft} (hd : d.Sound) (he : d.Extends d₁)
    (hc : d.nodes.size ≤ c.index) (h : d₁.Attached s c r d₂) {i : NodeId} (hi : i.index < d.nodes.size) :
    d₂.node i = { d.node i with children := d₂.childrenOf (.node i) } := by
  have hlt : i.index < d₁.nodes.size := Nat.lt_of_lt_of_le hi he.nodes_le
  have hne : i ≠ c := by
    rintro rfl
    exact Nat.not_lt.2 hc hi
  have hpath : (d₂.node i).path = (d.node i).path := by
    have hx : d.HasSite (.node i) := hi
    rw [h.path_outside i hlt fun hu => ?_, he.node i hi]
    rw [hd.under_iff_of_parent (fun j hj => by rw [he.node j hj]) hx] at hu
    exact Nat.not_lt.2 hc (hd.hasSite_above hu hx)
  rw [h.node i hlt, he.node i hi, if_neg hne, hpath]
  rfl

namespace Extends

/-- A new node is listed at a new site. -/
theorem placed (h : d.Extends d₁) (hs : ¬ d.HasSite s) (hs₁ : d₁.HasSite s)
    (hc : d.nodes.size ≤ c.index) (hlt : c.index < d₁.nodes.size) : d.Extends (d₁.placed s c) := by
  obtain ⟨h₁, h₂, h₃, h₄, h₅⟩ := d₁.sizes_mapChildren s (· ++ [c])
  have hne : ∀ {t}, d.HasSite t → t ≠ s := by
    rintro t ht rfl
    exact hs ht
  refine ⟨?_, h₃ ▸ h.uses_le, h₄ ▸ h.augments_le, h₂.trans h.groupings_size,
    h₅.trans h.modules_size, fun i hi => ?_, fun u hu => ?_, fun a ha => ?_, fun g => ?_, fun m => ?_⟩
  · exact ((Shelf.size_update _ _ _).trans h₁) ▸ h.nodes_le
  · have hic : i ≠ c := by
      rintro rfl
      exact Nat.not_lt.2 hc hi
    rw [node_placed hlt, if_neg hic, childrenOf_placed_of_ne (hne (t := .node i) hi)]
    exact h.node i hi
  · rw [usesOf_placed]
    exact h.usesOf u hu
  · refine (augment_mapChildren s _ a).trans ?_
    rw [childrenOf_mapChildren_of_ne (Ne.symm (hne (t := .augment a) ha))]
    exact h.augment a ha
  · refine (grouping_mapChildren s _ g).trans ?_
    rw [← h.grouping g]
    cases s with
    | grouping i => exact absurd (by rwa [HasSite, ← h.groupings_size]) hs
    | _ => rfl
  · refine (module_mapChildren s _ m).trans ?_
    rw [← h.module m]
    cases s with
    | module i => exact absurd (by rwa [HasSite, ← h.modules_size]) hs
    | _ => rfl

/-- A uses is put at a new site. -/
theorem pushedUses (h : d.Extends d₁) (hs : ¬ d.HasSite s) (hs₁ : d₁.HasSite s) (u : UsesId) :
    d.Extends (d₁.pushedUses s u) := by
  obtain ⟨h₁, h₂, h₃, h₄, h₅⟩ := d₁.sizes_pushedUses s u
  have hne : ∀ {t}, d.HasSite t → s ≠ t := by
    rintro t ht rfl
    exact hs ht
  refine ⟨h₁ ▸ h.nodes_le, h₃ ▸ h.uses_le, h₄ ▸ h.augments_le, h₂.trans h.groupings_size,
    h₅.trans h.modules_size, fun i hi => ?_, fun v hv => ?_, fun a ha => ?_, fun g => ?_, fun m => ?_⟩
  · rw [node_pushedUses, usesAt_pushedUses_of_ne (hne (t := .node i) hi)]
    exact h.node i hi
  · refine Eq.trans ?_ (h.usesOf v hv)
    rw [Draft.usesOf, h₃]
    rfl
  · rw [augment_pushedUses, usesAt_pushedUses_of_ne (hne (t := .augment a) ha)]
    exact h.augment a ha
  · rw [grouping_pushedUses, ← h.grouping g]
    cases s with
    | grouping i => exact absurd (by rwa [HasSite, ← h.groupings_size]) hs
    | _ => rfl
  · rw [module_pushedUses, ← h.module m]
    cases s with
    | module i => exact absurd (by rwa [HasSite, ← h.modules_size]) hs
    | _ => rfl

/-- A new node is attached to a new augmentation. -/
theorem attached {a : AugmentId} {r : NodeId} {d₂ : Draft} (h : d.Extends d₁) (hd : d.Sound)
    (ha : d.augments.size ≤ a.index) (hc : d.nodes.size ≤ c.index)
    (h' : d₁.Attached (.augment a) c r d₂) : d.Extends d₂ where
  nodes_le := Nat.le_trans h.nodes_le h'.nodes_le
  uses_le := by rw [h'.uses]; exact h.uses_le
  augments_le := by rw [h'.augments_size]; exact h.augments_le
  groupings_size := h'.groupings_size.trans h.groupings_size
  modules_size := h'.modules_size.trans h.modules_size
  node i hi := by
    have hi₁ : d₁.HasSite (.node i) := Nat.lt_of_lt_of_le hi h.nodes_le
    rw [h'.node_of_lt hd h hc hi, h'.children_of_hasSite hi₁ (by simp), h.childrenOf (s := .node i) hi]
    rfl
  usesOf u hu := by
    rw [Draft.usesOf, h'.uses]
    exact h.usesOf u hu
  augment b hb := by
    have hba : Site.augment b ≠ .augment a := by
      rintro ⟨⟩
      exact Nat.not_lt.2 ha hb
    rw [h'.augment, h'.children_of_ne _ (by simp) hba]
    exact h.augment b hb
  grouping g := by
    rw [h'.grouping, h'.children_of_ne _ (by simp) (by simp)]
    exact h.grouping g
  module m := by
    rw [h'.module, h'.children_of_ne _ (by simp) (by simp)]
    exact h.module m

end Extends

end Draft

end YangSchema
