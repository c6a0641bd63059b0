import YangSchema.Proofs.Inference.Attempt

/-!
# Attempts that come to nothing

A task is tried again in every pass until it can be carried out, so an attempt that comes to nothing
must leave no trace.  Every check stands before the first edit: an attempt that is put off, an expansion
that is refused as a name of the grouping is taken at its place, and a merge that is refused leave the
draft as it was.  None of this needs anything of the draft.

To tell these refusals from what may go wrong after the first edit, the causes for which copying and
placing can fail are listed (`Cause.OfPlacing`, `Edit.FailsFor`); so a merge fails with a conflict exactly
if its target accepts children and has one that is named as a child of the body
(`ends_merge_exactly`).
-/

namespace YangSchema

/-! ## Causes -/

/-- What may go wrong in copying definitions and putting them at a place. -/
inductive Cause.OfPlacing : Cause → Prop
  | cannotContain (kind path child : String) : OfPlacing (.malformed (.cannotContain kind path child))
  | alreadyFrozen (id : String) : OfPlacing (.internal (.alreadyFrozen id))
  | nestedInItself (id : String) : OfPlacing (.nestedInItself id)

/-- A name from a grouping is taken at the place of the uses. -/
def Cause.IsAlreadyDefined (c : Cause) : Prop :=
  ∃ name grouping site, c = .malformed (.alreadyDefined name grouping site)

/-- The target of an augmentation has a child of a name that the augmentation brings. -/
def Cause.IsConflict (c : Cause) : Prop :=
  ∃ target identifier, c = .augmentationConflict target identifier

/-- The target of an augmentation holds no children. -/
def Cause.IsInvalidTarget (c : Cause) : Prop := ∃ target kind, c = .invalidAugmentTarget target kind

theorem Cause.OfPlacing.not_isAlreadyDefined {c : Cause} (h : c.OfPlacing) : ¬ c.IsAlreadyDefined := by
  rintro ⟨_, _, _, rfl⟩
  cases h

theorem Cause.OfPlacing.not_isConflict {c : Cause} (h : c.OfPlacing) : ¬ c.IsConflict := by
  rintro ⟨_, _, rfl⟩
  cases h

theorem Cause.OfPlacing.not_isInvalidTarget {c : Cause} (h : c.OfPlacing) : ¬ c.IsInvalidTarget := by
  rintro ⟨_, _, rfl⟩
  cases h

/-! ## What edits fail for -/

namespace Edit

variable {α β : Type} {P P' : Cause → Prop}

/-- The edit has no fault but those with a cause that `P` accepts, whatever the draft. -/
def FailsFor (P : Cause → Prop) (e : Edit α) : Prop :=
  ∀ d, Ends e d (fun _ _ => True) fun f _ => P f.cause

namespace FailsFor

theorem mono {e : Edit α} (h : FailsFor P e) (hP : ∀ c, P c → P' c) : FailsFor P' e :=
  fun d => (h d).mono (fun _ _ _ => trivial) fun f _ => hP f.cause

theorem pure (a : α) : FailsFor P (Pure.pure a) := fun _ => trivial

theorem throw {f : Fault} (h : P f.cause) : FailsFor P (throw f : Edit α) := fun _ => h

theorem modify (g : Draft → Draft) : FailsFor P (modify g) := fun _ => trivial

theorem bind {e : Edit β} {k : β → Edit α} (he : FailsFor P e) (hk : ∀ b, FailsFor P (k b)) :
    FailsFor P (e >>= k) := by
  intro d
  rw [ends_bind]
  exact (he d).mono (fun b d' _ => hk b d') fun _ _ h => h

theorem get {k : Draft → Edit α} (hk : ∀ d, FailsFor P (k d)) : FailsFor P (MonadState.get >>= k) :=
  bind (fun _ => trivial) hk

theorem discard {e : Edit α} (he : FailsFor P e) : FailsFor P (discard e) := by
  intro d
  rw [ends_discard]
  exact he d

theorem located {e : Edit α} (t : Trace) (he : FailsFor P e) : FailsFor P (located t e) := by
  intro d
  rw [ends_located]
  exact he d

theorem forM {g : β → Edit PUnit} (l : List β) (h : ∀ b, FailsFor P (g b)) : FailsFor P (l.forM g) :=
  fun _ => ends_forM (I := fun _ _ => True) l trivial fun _ b _ d _ _ => h b d

theorem mapM {g : β → Edit α} (l : List β) (h : ∀ b, FailsFor P (g b)) : FailsFor P (l.mapM g) :=
  fun _ => ends_mapM (I := fun _ _ _ => True) l trivial fun _ b _ _ d _ _ => h b d

end FailsFor

end Edit

open Edit

namespace Draft

variable {s : Site} {d : Draft}

/-! ## Copying and placing -/

theorem failsFor_requireOpen (frozen : Bool) (id : String) :
    FailsFor Cause.OfPlacing (requireOpen frozen id) := by
  cases frozen with
  | true => exact .throw (.alreadyFrozen id)
  | false => exact .pure ()

theorem failsFor_editNode (i : NodeId) (f : NodeDraft → NodeDraft) :
    FailsFor Cause.OfPlacing (editNode i f) :=
  .get fun _ => .bind (failsFor_requireOpen _ _) fun _ => .modify _

theorem failsFor_editGrouping (i : GroupingId) (f : GroupingDraft → GroupingDraft) :
    FailsFor Cause.OfPlacing (editGrouping i f) :=
  .get fun _ => .bind (failsFor_requireOpen _ _) fun _ => .modify _

theorem failsFor_editUses (i : UsesId) (f : UsesDraft → UsesDraft) :
    FailsFor Cause.OfPlacing (editUses i f) :=
  .get fun _ => .bind (failsFor_requireOpen _ _) fun _ => .modify _

theorem failsFor_editAugment (i : AugmentId) (f : AugmentDraft → AugmentDraft) :
    FailsFor Cause.OfPlacing (editAugment i f) :=
  .get fun _ => .bind (failsFor_requireOpen _ _) fun _ => .modify _

theorem failsFor_editModule (i : ModuleId) (f : ModuleDraft → ModuleDraft) :
    FailsFor Cause.OfPlacing (editModule i f) :=
  .get fun _ => .bind (failsFor_requireOpen _ _) fun _ => .modify _

theorem failsFor_editChildren (s : Site) (f : List NodeId → List NodeId) :
    FailsFor Cause.OfPlacing (editChildren s f) := by
  cases s with
  | module i => exact failsFor_editModule _ _
  | node i => exact failsFor_editNode _ _
  | grouping i => exact failsFor_editGrouping _ _
  | augment i => exact failsFor_editAugment _ _

theorem failsFor_pushUses (s : Site) (u : UsesId) : FailsFor Cause.OfPlacing (pushUses s u) := by
  cases s with
  | module i => exact failsFor_editModule _ _
  | node i => exact failsFor_editNode _ _
  | grouping i => exact failsFor_editGrouping _ _
  | augment i => exact failsFor_editAugment _ _

theorem failsFor_repath (fuel : Nat) (i : NodeId) (above : SchemaPath) :
    FailsFor Cause.OfPlacing (repath fuel i above) := by
  induction fuel generalizing i above with
  | zero => exact .throw (.nestedInItself _)
  | succ fuel ih =>
    exact .bind (failsFor_editNode _ _) fun _ => .get fun _ => .forM _ fun c => ih c _

theorem failsFor_place (s : Site) (c : NodeId) : FailsFor Cause.OfPlacing (place s c) :=
  .get fun _ => .bind (failsFor_editChildren _ _) fun _ =>
    .bind (failsFor_editNode _ _) fun _ => .get fun _ => failsFor_repath _ _ _

theorem failsFor_attach (s : Site) (c : NodeId) : FailsFor Cause.OfPlacing (attach s c) := by
  have hplace : ∀ s, FailsFor Cause.OfPlacing (do place s c; return c) :=
    fun s => .bind (failsFor_place s c) fun _ => .pure c
  refine .get fun d => ?_
  cases s with
  | node p =>
    dsimp only
    split
    · exact .throw (.cannotContain _ _ _)
    · split
      · refine .bind (fun _ => trivial) fun wrapper => .bind (failsFor_place _ _) fun _ => ?_
        exact .bind (failsFor_place _ _) fun _ => .pure wrapper
      · exact hplace _
  | module i => exact hplace _
  | grouping i => exact hplace _
  | augment i => exact hplace _

/-- Copying, one case for each kind of definition, by the fuel. -/
theorem failsFor_copyUpTo (style : CopyStyle) (fuel : Nat) :
    (∀ i, FailsFor Cause.OfPlacing (copyNodeUpTo style fuel i)) ∧
    (∀ u, FailsFor Cause.OfPlacing (copyUsesUpTo style fuel u)) ∧
    ∀ a, FailsFor Cause.OfPlacing (copyAugmentUpTo style fuel a) := by
  induction fuel with
  | zero => exact ⟨fun _ => .throw (.nestedInItself _), fun _ => .throw (.nestedInItself _),
      fun _ => .throw (.nestedInItself _)⟩
  | succ fuel ih =>
    obtain ⟨hnode, huses, haugment⟩ := ih
    refine ⟨fun i => .get fun d => .bind (fun _ => trivial) fun copy => ?_,
      fun u => .get fun d => .bind (.mapM _ haugment) fun _ _ => trivial,
      fun a => .get fun d => .bind (fun _ => trivial) fun copy => ?_⟩
    · refine .bind (.forM _ fun c => .bind (hnode c) fun c' => ?_) fun _ =>
        .bind (.forM _ fun u => .bind (huses u) fun _ => failsFor_pushUses _ _) fun _ => .pure copy
      exact .bind (failsFor_editChildren _ _) fun _ => failsFor_editNode _ _
    · refine .bind (.forM _ fun c => .bind (hnode c) fun c' => .discard (failsFor_attach _ _)) fun _ =>
        .bind (.forM _ fun u => .bind (huses u) fun _ => failsFor_pushUses _ _) fun _ => .pure copy

theorem failsFor_copyNode (style : CopyStyle) (i : NodeId) :
    FailsFor Cause.OfPlacing (copyNode style i) :=
  .get fun d => (failsFor_copyUpTo style d.size).1 i

theorem failsFor_copyUses (style : CopyStyle) (u : UsesId) :
    FailsFor Cause.OfPlacing (copyUses style u) :=
  .get fun d => (failsFor_copyUpTo style d.size).2.1 u

theorem failsFor_copyChildren (style : CopyStyle) (s : Site) (l : List NodeId) :
    FailsFor Cause.OfPlacing (l.forM fun c => do discard <| attach s (← copyNode style c)) :=
  .forM l fun c => .bind (failsFor_copyNode style c) fun _ => .discard (failsFor_attach s _)

theorem failsFor_copyUsesOf (style : CopyStyle) (s : Site) (l : List UsesId) :
    FailsFor Cause.OfPlacing (l.forM fun u => do pushUses s (← copyUses style u)) :=
  .forM l fun u => .bind (failsFor_copyUses style u) fun _ => failsFor_pushUses s _

theorem failsFor_copyBody (style : CopyStyle) (body : GroupingDraft) (s : Site) :
    FailsFor Cause.OfPlacing (copyBody style body s) :=
  .bind (failsFor_copyChildren style s _) fun _ => failsFor_copyUsesOf style s _

/-! ## Clashes -/

theorem findChild_isSome {q : QName} :
    (d.findChild s q).isSome = true ↔ ∃ c' ∈ d.childrenOf s, (d.node c').name = q := by
  simp [findChild, List.find?_isSome]

/-- There is a clash exactly if a name of the body, renamed, is the name of a child of the site. -/
theorem findClash_isSome {rename : QName → QName} {body : List NodeId} :
    (d.findClash s rename body).isSome = true ↔
      ∃ c ∈ body, ∃ c' ∈ d.childrenOf s, (d.node c').name = rename (d.node c).name := by
  simp only [findClash, List.find?_isSome, List.mem_map, exists_exists_and_eq_and, findChild_isSome]

/-- The body of the augmentation has a child that is named as a child of the node. -/
def Clash (d : Draft) (a : AugmentId) (n : NodeId) : Prop :=
  ∃ c ∈ (d.augment a).children, ∃ c' ∈ (d.node n).children, (d.node c').name = (d.node c).name

/-! ## Merging -/

theorem failsFor_mergeBody (a : AugmentId) (body : AugmentDraft) (n : NodeId) :
    FailsFor Cause.OfPlacing (mergeBody a body n) :=
  .bind (failsFor_copyChildren _ (.node n) body.children) fun _ =>
    .bind (failsFor_copyUsesOf _ (.node n) body.uses) fun _ => failsFor_editNode n _

/-- How a merge ends: it is carried out on a target that accepts the body, or refused before anything is
done, or fails in copying the body. -/
theorem ends_merge_exactly (a : AugmentId) (n : NodeId) (d : Draft) :
    Ends (merge a n) d
      (fun _ _ => (d.node n).kind.acceptsChildren = true ∧ ¬ d.Clash a n)
      fun f d' =>
        ((d.node n).kind.acceptsChildren = false ∧ f.cause.IsInvalidTarget ∧ d' = d) ∨
        ((d.node n).kind.acceptsChildren = true ∧ d.Clash a n ∧ f.cause.IsConflict ∧ d' = d) ∨
        ((d.node n).kind.acceptsChildren = true ∧ ¬ d.Clash a n ∧ f.cause.OfPlacing) := by
  have hclash : (d.findClash (.node n) id (d.augment a).children).isSome = true ↔ d.Clash a n :=
    findClash_isSome
  refine ends_merge_of (fun hacc => .inl ⟨hacc, ⟨_, _, rfl⟩, rfl⟩) (fun q hacc hq => ?_)
    fun hacc hfree => ?_
  · exact .inr (.inl ⟨hacc, hclash.1 (by rw [hq]; rfl), ⟨_, _, rfl⟩, rfl⟩)
  · have hno : ¬ d.Clash a n := fun h => by simpa [hfree] using hclash.2 h
    exact (failsFor_mergeBody a _ n d).mono (fun _ _ _ => ⟨hacc, hno⟩) fun _ _ h =>
      .inr (.inr ⟨hacc, hno, h⟩)

theorem failsFor_merge (a : AugmentId) (n : NodeId) :
    FailsFor (fun c => ¬ c.IsAlreadyDefined) (merge a n) := by
  refine fun d => (ends_merge_exactly a n d).mono (fun _ _ _ => trivial) fun f d' h => ?_
  rcases h with ⟨-, ⟨_, _, hf⟩, -⟩ | ⟨-, -, ⟨_, _, hf⟩, -⟩ | ⟨-, -, hf⟩
  · rintro ⟨_, _, _, h⟩
    rw [h] at hf
    cases hf
  · rintro ⟨_, _, _, h⟩
    rw [h] at hf
    cases hf
  · exact hf.not_isAlreadyDefined

theorem not_isAlreadyDefined_unresolved (what target : String) :
    ¬ (Cause.unresolved what target).IsAlreadyDefined := by
  rintro ⟨_, _, _, h⟩
  cases h

theorem failsFor_mergeBelow (s : Site) (a : AugmentId) :
    FailsFor (fun c => ¬ c.IsAlreadyDefined) (mergeBelow s a) := by
  exact fun d => ends_mergeBelow_of (fun _ => not_isAlreadyDefined_unresolved _ _)
    fun n _ => failsFor_merge a n d

end Draft

open Draft

/-! ## Expanding -/

theorem RefineTask.failsFor_run (t : RefineTask) (s : Site) :
    FailsFor (fun c => ¬ c.IsAlreadyDefined) (t.run s) := by
  refine .get fun d => ?_
  split
  · exact .throw (not_isAlreadyDefined_unresolved _ _)
  · exact (failsFor_editNode _ _).mono fun _ h => h.not_isAlreadyDefined

/-- A child of the grouping that the uses resolves to, named for the place of the uses, is named as a
child of that place. -/
def UsesTask.Clash (t : UsesTask) (d : Draft) : Prop :=
  ∃ g, t.resolve d = some g ∧ ∃ c ∈ (d.grouping g).children, ∃ c' ∈ d.childrenOf t.site,
    (d.node c').name = (d.node c).name.bindTo t.home

theorem UsesTask.clash_iff {t : UsesTask} {d : Draft} {g : GroupingId} (hg : t.resolve d = some g) :
    t.Clash d ↔ (d.findClash t.site (QName.bindTo t.home) (d.grouping g).children).isSome = true := by
  rw [findClash_isSome]
  constructor
  · rintro ⟨g', hg', h⟩
    obtain rfl := Option.some.inj (hg.symm.trans hg')
    exact h
  · exact fun h => ⟨g, hg, h⟩

theorem UsesTask.failsFor_expand (t : UsesTask) (body : GroupingDraft) (inner : List AugmentId) :
    FailsFor (fun c => ¬ c.IsAlreadyDefined) (t.expand body inner) := by
  refine .bind ((failsFor_editUses _ _).mono fun _ h => h.not_isAlreadyDefined) fun _ => ?_
  refine .bind ((failsFor_copyBody _ _ _).mono fun _ h => h.not_isAlreadyDefined) fun _ => ?_
  exact .bind (.forM t.refines fun r => (r.failsFor_run t.site).located r.trace) fun _ =>
    .forM inner (failsFor_mergeBelow t.site)

/-- How an attempt to expand a uses ends: it is put off, or refused, before anything is done; or it is
carried out, or fails on the way. -/
theorem UsesTask.ends_attempt_exactly (t : UsesTask) (busy : List Owner) (d : Draft) :
    Ends (t.attempt busy) d
      (fun progress d' => progress = .blocked ∧ t.Waits busy d ∧ d' = d ∨
        progress = .applied ∧ ¬ t.Waits busy d ∧ ¬ t.Clash d)
      fun f d' => ¬ t.Waits busy d ∧
        (t.Clash d ∧ f.cause.IsAlreadyDefined ∧ d' = d ∨ ¬ t.Clash d ∧ ¬ f.cause.IsAlreadyDefined) := by
  refine ends_attempt_of (fun hwaits => .inl ⟨rfl, hwaits, rfl⟩)
    (fun g q name place hres hgoes hq => ?_) fun g hres hgoes hfree => ?_
  · exact ⟨hgoes, .inl ⟨(clash_iff hres).2 (by rw [hq]; rfl), ⟨_, _, _, rfl⟩, rfl⟩⟩
  · -- there are edits, but nothing that fails says that a name is taken
    have hno : ¬ t.Clash d := fun h => by simpa [hfree] using (clash_iff hres).1 h
    exact (t.failsFor_expand _ _ d).mono (fun _ _ _ => .inr ⟨rfl, hgoes, hno⟩)
      fun f _ hf => ⟨hgoes, .inr ⟨hno, hf⟩⟩

/-- How an attempt to merge a module-level augmentation ends: it is put off exactly if its target is not
there, and else does what the merge does. -/
theorem AugmentTask.ends_attempt_exactly (t : AugmentTask) (d : Draft) :
    Ends t.attempt d
      (fun progress d' => progress = .blocked ∧ d.findDataNode t.target = none ∧ d' = d ∨
        progress = .applied ∧ (d.findDataNode t.target).isSome)
      fun f d' => ∃ n, d.findDataNode t.target = some n ∧
        (merge t.augment n).perform d = (.error f, d') := by
  refine ends_attempt_of (fun hnone => .inl ⟨rfl, hnone, rfl⟩) fun n hn => ?_
  rw [hn]
  exact ends_iff.2 ⟨fun _ _ _ => .inr ⟨rfl, rfl⟩, fun f d' h => ⟨n, rfl, h⟩⟩

/-! ## Main result -/

/-- **Attempts that come to nothing change nothing.**  Whatever the draft: an expansion or an
augmentation that is put off leaves it as it was; so does an expansion that is refused for a name that is
taken, and a merge that is refused for its target or for a conflict.  Among the merges it is a conflict
exactly if the target accepts children and a name of the body is the name of one of its children. -/
theorem rejected_attempts_change_nothing (d d' : Draft) :
    (∀ (t : UsesTask) busy,
      ((t.attempt busy).perform d = (.ok .blocked, d') → d' = d) ∧
      ∀ f, (t.attempt busy).perform d = (.error f, d') → f.cause.IsAlreadyDefined → d' = d) ∧
    (∀ t : AugmentTask, t.attempt.perform d = (.ok .blocked, d') → d' = d) ∧
    ∀ a n,
      (∀ f, (merge a n).perform d = (.error f, d') →
        f.cause.IsConflict ∨ f.cause.IsInvalidTarget → d' = d) ∧
      ((∃ f d₁, (merge a n).perform d = (.error f, d₁) ∧ f.cause.IsConflict) ↔
        (d.node n).kind.acceptsChildren = true ∧
        ∃ c ∈ (d.augment a).children, ∃ c' ∈ (d.node n).children, (d.node c').name = (d.node c).name) := by
  refine ⟨fun t busy => ⟨fun h => ?_, fun f h hf => ?_⟩, fun t h => ?_, fun a n => ⟨fun f h hf => ?_, ?_⟩⟩
  · rcases (t.ends_attempt_exactly busy d).of_ok h with ⟨-, -, h⟩ | ⟨h, -⟩
    · exact h
    · cases h
  · rcases ((t.ends_attempt_exactly busy d).of_error h).2 with ⟨-, -, h⟩ | ⟨-, h⟩
    · exact h
    · exact absurd hf h
  · rcases (t.ends_attempt_exactly d).of_ok h with ⟨-, -, h⟩ | ⟨h, -⟩
    · exact h
    · cases h
  · rcases (ends_merge_exactly a n d).of_error h with ⟨-, -, h⟩ | ⟨-, -, -, h⟩ | ⟨-, -, h⟩
    · exact h
    · exact h
    · exact (hf.elim h.not_isConflict h.not_isInvalidTarget).elim
  · constructor
    · rintro ⟨f, d₁, h, _, _, hf⟩
      rcases (ends_merge_exactly a n d).of_error h with ⟨-, ⟨_, _, h⟩, -⟩ | ⟨hacc, hclash, -⟩ | ⟨-, -, h⟩
      · rw [h] at hf
        cases hf
      · exact ⟨hacc, hclash⟩
      · exact absurd ⟨_, _, hf⟩ h.not_isConflict
    · rintro ⟨hacc, hclash⟩
      cases h : (merge a n).perform d with
      | mk r d₁ =>
        cases r with
        | ok u => exact absurd hclash ((ends_merge_exactly a n d).of_ok h).2
        | error f =>
          rcases (ends_merge_exactly a n d).of_error h with ⟨hnot, -⟩ | ⟨-, -, hf, -⟩ | ⟨-, hno, -⟩
          · exact absurd (hacc.symm.trans hnot) Bool.noConfusion
          · exact ⟨f, d₁, rfl, hf⟩
          · exact absurd hclash hno

/-- An augmentation by `fresh` and `dup` of a container with a child `dup` is refused, and not even
`fresh` is merged. -/
theorem rejected_attempts_change_nothing_dup :
    let named (kind : NodeKind) (name : String) : NodeDraft := .blank kind ⟨⟨"urn:m", none⟩, name⟩
    let holder : NodeDraft := { named .container "c" with children := [⟨1⟩] }
    let body : AugmentDraft := { facts := default, children := [⟨2⟩, ⟨3⟩] }
    let d : Draft := {
      nodes := ⟨#[⟨holder, none⟩, ⟨named .leaf "dup", none⟩, ⟨named .leaf "fresh", none⟩,
        ⟨named .leaf "dup", none⟩]⟩
      augments := ⟨#[⟨body, none⟩]⟩ }
    ∃ f, (merge ⟨0⟩ ⟨0⟩).perform d = (.error f, d) ∧ f.cause.IsConflict := by
  intro named holder body d
  obtain ⟨f, d', h, hf⟩ := ((rejected_attempts_change_nothing d d).2.2 ⟨0⟩ ⟨0⟩).2.2
    ⟨rfl, ⟨3⟩, List.mem_cons_of_mem _ List.mem_cons_self, ⟨1⟩, List.mem_cons_self, rfl⟩
  have hsame := ((rejected_attempts_change_nothing d d').2.2 ⟨0⟩ ⟨0⟩).1 f h (.inl hf)
  subst hsame
  exact ⟨f, h, hf⟩

end YangSchema
