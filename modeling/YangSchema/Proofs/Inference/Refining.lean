import YangSchema.Inference.Settle
import YangSchema.Proofs.Draft.Grafting
import YangSchema.Proofs.Faults

/-!
# What refines do

A refine changes the record of the node that its target finds, and nothing else.  Several refines of
one node act as a single one that says what they say together: the last word on what a refine
replaces, and all that they add (`Refinement.joint`).  Names and places stay, so a target finds the
same node whatever was refined before, and what a list of refines makes of each node can be told from
the draft that they start from (`Refined`).
-/

namespace YangSchema

/-! ## What several refines say together -/

namespace Refinement

variable {α : Type}

/-- What the last refine that states a property says. -/
def last (f : Refinement → Option α) (l : List Refinement) : Option α := l.reverse.findSome? f

@[simp] theorem last_nil (f : Refinement → Option α) : last f [] = none := rfl

@[simp] theorem last_snoc (f : Refinement → Option α) (l : List Refinement) (r : Refinement) :
    last f (l ++ [r]) = (f r).or (last f l) := by
  unfold last
  rw [List.reverse_append, List.reverse_singleton, List.singleton_append, List.findSome?_cons]
  cases f r <;> rfl

/-- The values that the refine puts in place of the defaults, if any. -/
def statedDefaults (r : Refinement) : Option (List String) :=
  if r.defaults.isEmpty then none else some r.defaults

/-- The refine that says what the refines of a list say one after the other. -/
def joint (l : List Refinement) : Refinement where
  description := last description l
  reference := last reference l
  config := last config l
  mandatory := last mandatory l
  presence := last presence l
  must := l.flatMap must
  defaults := (last statedDefaults l).getD []
  minElements := last minElements l
  maxElements := last maxElements l
  unknown := l.flatMap unknown

theorem joint_apply_snoc (l : List Refinement) (r : Refinement) (n : NodeDraft) :
    (joint (l ++ [r])).apply n = r.apply ((joint l).apply n) := by
  have hdefaults : (if ((r.statedDefaults.or (last statedDefaults l)).getD []).isEmpty then
        n.facts.properties.defaults else (r.statedDefaults.or (last statedDefaults l)).getD []) =
      if r.defaults.isEmpty then
        if ((last statedDefaults l).getD []).isEmpty then n.facts.properties.defaults
        else (last statedDefaults l).getD []
      else r.defaults := by
    unfold statedDefaults
    split
    · rfl
    · next hne => simp [hne]
  unfold apply joint
  simp only [last_snoc, List.flatMap_append, List.flatMap_singleton, Option.or_assoc,
    List.append_assoc, hdefaults]
  cases r.maxElements <;> rfl

@[simp] theorem joint_nil_apply (n : NodeDraft) : (joint []).apply n = n := by
  simp [apply, joint]

end Refinement

/-- A fault that is no report of a missing grouping or of a missing target of a module-level
augmentation, and does not say that something is nested in itself. -/
structure Fault.OfAttempt (f : Fault) : Prop where
  phase : f.cause.Of .effectiveModel
  ends : ∀ id, f.cause ≠ .nestedInItself id
  no_grouping : ∀ text, f.cause ≠ .unresolved "grouping" text
  no_target : ∀ p : SchemaPath, p.absolute = true → f.cause ≠ .unresolved "augment target" p.render

theorem Fault.OfAttempt.locate {f : Fault} (h : f.OfAttempt) (t : Trace) : (f.locate t).OfAttempt :=
  ⟨h.phase, h.ends, h.no_grouping, h.no_target⟩

/-- A fault that is about nothing unresolved. -/
theorem Fault.OfAttempt.of_resolved {f : Fault} (hp : f.cause.Of .effectiveModel)
    (h : ∀ id, f.cause ≠ .nestedInItself id) (h' : ∀ what text, f.cause ≠ .unresolved what text) :
    f.OfAttempt :=
  ⟨hp, h, h' _, fun _ _ => h' _ _⟩

namespace Draft

variable {d d₁ d' : Draft} {s : Site} {n i : NodeId}

theorem findDescendant_under (hd : d.Sound) {p : List QName}
    (h : d.findDescendant s p = some n) : d.Under (.node n) s :=
  (Leads.of_descend (findDescendant_eq_some.1 h).2).under hd

theorem findDescendant_lt (hd : d.Sound) {p : List QName}
    (h : d.findDescendant s p = some n) : n.index < d.nodes.size := by
  obtain ⟨hp, hdesc⟩ := findDescendant_eq_some.1 h
  obtain ⟨q, p, rfl⟩ := List.exists_cons_of_ne_nil hp
  obtain ⟨c, hc, hrest⟩ := descend_cons.1 hdesc
  have hcs : d.HasSite (.node c) := hd.child_lt (findChild_eq_some hc).1
  exact hasSite_of_under ((Leads.of_descend hrest).under hd) hcs

end Draft

/-! ## Running refines -/

open Draft Edit

variable {d d' : Draft} {s : Site}

theorem harmless_refinement (r : Refinement) : Harmless r.apply :=
  ⟨fun _ => rfl, fun _ => rfl, fun _ => rfl, fun _ => rfl, fun _ => rfl, fun _ => rfl,
    fun _ => rfl, fun _ => rfl⟩

theorem ends_refine (hd : d.Sound) (r : RefineTask) (s : Site) :
    Ends (r.run s) d (fun _ d' => ∃ n, d.findDescendant s r.target.steps = some n ∧
      d' = d.mapNode n r.refinement.apply) fun f d' => d' = d ∧ f.OfAttempt := by
  unfold RefineTask.run
  rw [ends_bind, ends_get]
  split
  · rw [ends_throw]
    refine ⟨rfl, Cause.unresolved_of_effectiveModel _ _, fun _ h => (by cases h), fun _ h => ?_,
      fun _ _ h => ?_⟩
    · exact absurd (Cause.unresolved.inj h).1 (by decide)
    · exact absurd (Cause.unresolved.inj h).1 (by decide)
  next n hn =>
    rw [ends_editNode hd.unfrozen]
    exact ⟨n, hn, rfl⟩

/-- The refines of a list whose targets find the node. -/
def Draft.refinesOf (d : Draft) (s : Site) (l : List RefineTask) (i : NodeId) : List Refinement :=
  (l.filter fun t => d.findDescendant s t.target.steps == some i).map RefineTask.refinement

/-- The refines of a list are carried out at the site. -/
structure Refined (s : Site) (l : List RefineTask) (d d' : Draft) : Prop extends Quiet s d d' where
  alike : d.Alike d'
  found : ∀ r ∈ l, ∃ n, d.findDescendant s r.target.steps = some n
  record : ∀ i, d'.node i = (Refinement.joint (d.refinesOf s l i)).apply (d.node i)

theorem Draft.Alike.descend (h : d.Alike d') (p : List QName) : d'.descend s p = d.descend s p := by
  induction p generalizing s with
  | nil => rfl
  | cons q p ih =>
    have hchild : d'.findChild s q = d.findChild s q := by
      unfold findChild
      rw [h.childrenOf]
      exact List.find?_congr fun c _ => by rw [h.name c]
    show (d'.findChild s q).bind _ = (d.findChild s q).bind _
    rw [hchild]
    congr
    funext c
    exact ih

theorem Draft.Alike.findDescendant (h : d.Alike d') (p : List QName) :
    d'.findDescendant s p = d.findDescendant s p := by
  refine Option.ext fun i => ?_
  rw [findDescendant_eq_some, findDescendant_eq_some, h.descend]

theorem Draft.Alike.trans {d'' : Draft} (h : d.Alike d') (h' : d'.Alike d'') : d.Alike d'' where
  unfrozen := h'.unfrozen
  nodes_size := h'.nodes_size.trans h.nodes_size
  groupings_size := h'.groupings_size.trans h.groupings_size
  uses_size := h'.uses_size.trans h.uses_size
  augments_size := h'.augments_size.trans h.augments_size
  modules_size := h'.modules_size.trans h.modules_size
  name i := (h'.name i).trans (h.name i)
  kind i := (h'.kind i).trans (h.kind i)
  path i := (h'.path i).trans (h.path i)
  parent i := (h'.parent i).trans (h.parent i)
  origin i := (h'.origin i).trans (h.origin i)
  augmenting i := (h'.augmenting i).trans (h.augmenting i)
  childrenOf t := (h'.childrenOf t).trans (h.childrenOf t)
  usesAt t := (h'.usesAt t).trans (h.usesAt t)
  augmentations u := (h'.augmentations u).trans (h.augmentations u)
  grouping g := (h'.grouping g).trans (h.grouping g)
  grouping_path g := (h'.grouping_path g).trans (h.grouping_path g)
  target a := (h'.target a).trans (h.target a)
  home a := (h'.home a).trans (h.home a)
  order a := (h'.order a).trans (h.order a)
  heading m := (h'.heading m).trans (h.heading m)

theorem Refined.nil (hd : d.Sound) : Refined s [] d d where
  toQuiet := .refl hd
  alike := .refl hd.unfrozen
  found := by simp
  record i := by simp [refinesOf]

/-- One more refine. -/
theorem Refined.snoc {l : List RefineTask} (hd : d.Sound) (h : Refined s l d d') {r : RefineTask}
    {n : NodeId} (hn : d'.findDescendant s r.target.steps = some n) :
    Refined s (l ++ [r]) d (d'.mapNode n r.refinement.apply) := by
  have hf := harmless_refinement r.refinement
  have hlt := findDescendant_lt h.sound hn
  have hnd : d.findDescendant s r.target.steps = some n := by rw [← h.alike.findDescendant, hn]
  refine {
    toQuiet := h.toQuiet.trans hd ((hf.mapNode h.sound n).widen (findDescendant_under h.sound hn))
    alike := h.alike.trans (hf.alike h.sound.unfrozen n)
    found := fun t ht => ?_
    record := fun i => ?_ }
  · rcases List.mem_append.1 ht with ht | ht
    · exact h.found t ht
    · rw [List.mem_singleton.1 ht]
      exact ⟨n, hnd⟩
  · rw [node_mapNode]
    unfold refinesOf
    rw [List.filter_append]
    by_cases hi : n = i
    · subst hi
      have hfilter : [r].filter (fun t => d.findDescendant s t.target.steps == some n) = [r] := by
        simp [hnd]
      rw [if_pos ⟨rfl, hlt⟩, hfilter, List.map_append, List.map_singleton,
        Refinement.joint_apply_snoc, h.record]
      rfl
    · have hfilter : [r].filter (fun t => d.findDescendant s t.target.steps == some i) = [] := by
        simp [hnd, hi]
      rw [if_neg fun h => hi h.1, hfilter, List.append_nil]
      exact h.record i

theorem ends_refines (hd : d.Sound) (l : List RefineTask) (s : Site) :
    Ends (l.forM fun r => located r.trace (r.run s)) d (fun _ d' => Refined s l d d')
      fun f d' => Changes s d d' ∧ f.OfAttempt := by
  refine ends_forM (I := fun pre d' => Refined s pre d d') l (.nil hd) ?_
  intro pre r post d' _ h
  rw [ends_located]
  refine (ends_refine h.sound r s).mono ?_ ?_
  · rintro - d'' ⟨n, hn, rfl⟩
    exact h.snoc hd hn
  · rintro f d'' ⟨rfl, hf⟩
    exact ⟨h.toChanges, hf.locate _⟩

end YangSchema
