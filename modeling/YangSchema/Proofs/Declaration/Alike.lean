import YangSchema.Proofs.Declaration.Outcome
import YangSchema.Proofs.Faults

/-!
# Declaring under two configurations

The configuration is asked only whether a deviation becomes a task.  So two declarations that differ
in the configuration alone fail alike, or end with the same answer in workspaces that differ in
nothing but the deviations that take effect (`Declare.Alike`, `alike_declareModules`).
-/

namespace YangSchema

/-! ## Declarations that are alike -/

/-- The workspaces hold the same, but for the deviations that take effect. -/
structure Workspace.Alike (w w' : Workspace) : Prop where
  draft : w.draft = w'.draft
  uses : w.tasks.uses = w'.tasks.uses
  augments : w.tasks.augments = w'.tasks.augments
  nextOrder : w.nextOrder = w'.nextOrder

theorem Workspace.Alike.refl (w : Workspace) : w.Alike w := ⟨rfl, rfl, rfl, rfl⟩

namespace Declare

variable {α β : Type}

/-- On workspaces that are alike, both declarations fail with the same fault, or both give the same
answer and leave workspaces that are alike. -/
def Alike (x y : Declare α) : Prop :=
  ∀ w w', w.Alike w' → Agree (fun p q => p.1 = q.1 ∧ p.2.Alike q.2) (x w) (y w')

theorem alike_pure (a : α) : Alike (pure a) (pure a) := fun _ _ h => .ok ⟨rfl, h⟩

theorem alike_throw (f : Fault) : Alike (throw f : Declare α) (throw f) := fun _ _ _ => .error f

theorem Alike.bind {x y : Declare β} {k l : β → Declare α} (hxy : Alike x y)
    (hkl : ∀ b, Alike (k b) (l b)) : Alike (x >>= k) (y >>= l) := by
  intro w w' h
  refine (hxy w w' h).bind ?_
  rintro ⟨b, w₁⟩ ⟨_, w₁'⟩ - ⟨rfl, h₁⟩
  exact hkl b w₁ w₁' h₁

theorem alike_get_bind {k l : Workspace → Declare α}
    (h : ∀ w w', w.Alike w' → Alike (k w) (l w')) : Alike (get >>= k) (get >>= l) :=
  fun w w' hw => h w w' hw w w' hw

theorem Alike.discard {x y : Declare α} (h : Alike x y) :
    Alike (Functor.discard x) (Functor.discard y) :=
  h.bind fun _ => alike_pure _

theorem Alike.located {x y : Declare α} (h : Alike x y) (t : Trace) :
    Alike (YangSchema.located t x) (YangSchema.located t y) := by
  intro w w' hw
  have hrun : ∀ (z : Declare α) (w : Workspace),
      YangSchema.located t z w = (z w).mapError (·.locate t) := by
    intro z w
    show Except.tryCatch (z w) _ = _
    cases z w <;> rfl
  rw [hrun, hrun]
  have hxy := h w w' hw
  revert hxy
  generalize x w = a
  generalize y w' = b
  rintro (f | h)
  · exact .error _
  · exact .ok h

theorem alike_check (x : Except Fault α) : Alike (check x) (check x) := by
  intro w w' h
  cases x with
  | error f => exact .error f
  | ok a => exact .ok ⟨rfl, h⟩

theorem alike_edit (e : Edit α) : Alike (edit e) (edit e) := by
  rintro w w' ⟨hdraft, huses, haugments, horder⟩
  unfold edit
  rw [← hdraft]
  split
  · exact .ok ⟨rfl, rfl, huses, haugments, horder⟩
  · exact .error _

theorem alike_nextOrder : Alike nextOrder nextOrder := by
  rintro w w' ⟨hdraft, huses, haugments, horder⟩
  exact .ok ⟨horder, hdraft, huses, haugments, congrArg Nat.succ horder⟩

theorem alike_modify {f g : Workspace → Workspace} (h : ∀ w w', w.Alike w' → (f w).Alike (g w')) :
    Alike (modify f) (modify g) :=
  fun w w' hw => .ok ⟨rfl, h w w' hw⟩

theorem alike_addUsesTask (t : UsesTask) : Alike (addUsesTask t) (addUsesTask t) :=
  alike_modify fun _ _ h => ⟨h.draft, congrArg (· ++ [t]) h.uses, h.augments, h.nextOrder⟩

theorem alike_addAugmentTask (t : AugmentTask) : Alike (addAugmentTask t) (addAugmentTask t) :=
  alike_modify fun _ _ h => ⟨h.draft, h.uses, congrArg (· ++ [t]) h.augments, h.nextOrder⟩

/-- A deviation may become a task on one side and not on the other. -/
theorem alike_addDeviationTask (t : DeviationTask) (b b' : Bool) :
    Alike (if b then addDeviationTask t else pure ⟨⟩) (if b' then addDeviationTask t else pure ⟨⟩) := by
  rintro w w' ⟨hdraft, huses, haugments, horder⟩
  cases b <;> cases b' <;> exact .ok ⟨rfl, hdraft, huses, haugments, horder⟩

theorem alike_forM {f g : β → Declare PUnit} (l : List β) (h : ∀ x ∈ l, Alike (f x) (g x)) :
    Alike (l.forM f) (l.forM g) := by
  induction l with
  | nil => exact alike_pure _
  | cons x l ih =>
    obtain ⟨hx, hl⟩ := List.forall_mem_cons.1 h
    exact hx.bind fun _ => ih hl

theorem alike_mapM {f g : β → Declare α} (l : List β) (h : ∀ x ∈ l, Alike (f x) (g x)) :
    Alike (l.mapM f) (l.mapM g) := by
  induction l with
  | nil =>
    rw [List.mapM_nil, List.mapM_nil]
    exact alike_pure _
  | cons x l ih =>
    obtain ⟨hx, hl⟩ := List.forall_mem_cons.1 h
    rw [List.mapM_cons, List.mapM_cons]
    exact hx.bind fun _ => (ih hl).bind fun _ => alike_pure _

end Declare

open Declare

namespace Setting

variable (k : Setting) (config : BuildConfig) (s : Site) (stmt : Statement) (scope : Scope)
  (enclosing : List Owner)

/-! ## Bodies -/

theorem alike_declareGrouping : Alike (k.declareGrouping s stmt) (k.declareGrouping s stmt) := by
  refine (alike_check _).bind fun text => (alike_check _).bind fun docs => alike_get_bind ?_
  rintro w w' ⟨hdraft, -, -, -⟩
  rw [← hdraft]
  exact (alike_edit _).bind fun g => (alike_edit _).bind fun _ => alike_pure _

theorem alike_declareTypedef : Alike (k.declareTypedef s stmt) (k.declareTypedef s stmt) := by
  refine (alike_check _).bind fun text => ?_
  dsimp only
  split
  · exact (alike_check _).bind fun docs => alike_edit _
  · exact alike_throw _

theorem alike_declareNode (kind : Except Fault NodeKind) :
    Alike (k.declareNode s stmt kind) (k.declareNode s stmt kind) := by
  refine (alike_check _).bind fun text => (alike_check _).bind fun kind => ?_
  refine (alike_check _).bind fun docs => (alike_check _).bind fun config => ?_
  refine (alike_check _).bind fun constraints => (alike_edit _).bind fun i => ?_
  exact (alike_edit _).discard.bind fun _ => alike_pure i

theorem alike_declareAugment (target : SchemaPath) (order : Nat) :
    Alike (k.declareAugment stmt target order) (k.declareAugment stmt target order) :=
  (alike_check _).bind fun _ => alike_edit _

section

variable {body : BodyDeclarer} (hbody : ∀ s stmt scope enclosing,
  Alike (body s stmt scope enclosing) (body s stmt scope enclosing))

include hbody

theorem alike_declareUses : Alike (k.declareUses body s stmt scope enclosing)
    (k.declareUses body s stmt scope enclosing) := by
  refine (alike_check _).bind fun q => (alike_edit _).bind fun u => (alike_edit _).bind fun _ => ?_
  refine (alike_mapM _ fun c _ => (alike_check _).located _).bind fun refines => ?_
  refine (alike_edit _).bind fun _ => ?_
  refine (alike_forM _ fun c _ => Alike.located ?_ _).bind fun _ => alike_addUsesTask _
  refine (alike_check _).bind fun target => alike_nextOrder.bind fun order => ?_
  refine (k.alike_declareAugment c target order).bind fun a => ?_
  exact (hbody _ _ _ _).bind fun _ => alike_edit _

theorem alike_declareStatement : Alike (k.declareStatement body s stmt scope enclosing)
    (k.declareStatement body s stmt scope enclosing) := by
  unfold declareStatement
  split
  · exact (k.alike_declareNode s stmt _).bind fun i => hbody _ _ _ _
  split
  · exact (alike_check _).bind fun unknown => alike_edit _
  split
  · exact k.alike_declareUses _ stmt scope enclosing hbody
  · exact k.alike_declareTypedef _ stmt
  · exact alike_pure _
  · exact alike_pure _
  · exact alike_throw _
  · exact alike_throw _
  · exact alike_pure _

end

theorem alike_declareBodyUpTo (fuel : Nat) : ∀ s stmt scope enclosing,
    Alike (k.declareBodyUpTo fuel s stmt scope enclosing)
      (k.declareBodyUpTo fuel s stmt scope enclosing) := by
  induction fuel with
  | zero => exact fun _ _ _ _ => alike_throw _
  | succ fuel ih =>
    intro s stmt scope enclosing
    rw [declareBodyUpTo]
    refine (alike_mapM _ fun c _ => Alike.located ?_ _).bind fun groupings => ?_
    · exact (k.alike_declareGrouping s c).bind fun g => alike_pure _
    refine (alike_forM _ fun g _ => (ih _ _ _ _).located _).bind fun _ => ?_
    exact alike_forM _ fun c _ => (k.alike_declareStatement s c _ enclosing ih).located _

/-- The same source under another configuration. -/
def under (k : Setting) (config : BuildConfig) : Setting := { k with config }

/-- Nothing in a body asks for the configuration. -/
theorem declareBody_under : (k.under config).declareBody = k.declareBody := by
  have h : ∀ fuel, (k.under config).declareBodyUpTo fuel = k.declareBodyUpTo fuel := by
    intro fuel
    induction fuel with
    | zero => rfl
    | succ fuel ih =>
      funext s stmt scope enclosing
      rw [declareBodyUpTo, declareBodyUpTo, ih]
      rfl
  funext s stmt
  exact congrFun (congrFun (h stmt.depth) s) stmt

theorem alike_declareBody : Alike (k.declareBody s stmt scope enclosing)
    ((k.under config).declareBody s stmt scope enclosing) := by
  rw [declareBody_under]
  exact k.alike_declareBodyUpTo _ _ _ _ _

/-! ## The top of a source -/

theorem alike_declareTopAugment :
    Alike (k.declareTopAugment stmt) ((k.under config).declareTopAugment stmt) := by
  refine (alike_check _).bind fun target => alike_nextOrder.bind fun order => ?_
  refine (k.alike_declareAugment stmt target order).bind fun a => (alike_edit _).bind fun _ => ?_
  exact (k.alike_declareBody config _ _ _ _).bind fun _ => alike_addAugmentTask _

/-- The configuration is asked at the end, when the deviation is read, numbered and listed. -/
theorem alike_declareDeviation :
    Alike (k.declareDeviation stmt) ((k.under config).declareDeviation stmt) := by
  refine (alike_check _).bind fun target => (alike_check _).bind fun deviated => ?_
  refine (alike_mapM _ fun d _ => (alike_check _).located _).bind fun deviates => ?_
  refine alike_nextOrder.bind fun order => (alike_edit _).bind fun _ => ?_
  exact alike_addDeviationTask _ _ _

theorem alike_declareTop : Alike (k.declareTop stmt) ((k.under config).declareTop stmt) := by
  unfold declareTop
  split
  · exact (alike_check _).bind fun _ => (alike_check _).bind fun _ => alike_edit _
  · exact (alike_check _).bind fun _ => (alike_check _).bind fun _ => alike_edit _
  · refine (alike_check _).bind fun _ => (alike_check _).bind fun _ => ?_
    exact (alike_check _).bind fun _ => alike_edit _
  · exact k.alike_declareTopAugment config stmt
  · exact k.alike_declareDeviation config stmt
  · exact alike_pure _

theorem alike_declareSource : Alike (k.declareSource stmt) ((k.under config).declareSource stmt) :=
  (alike_forM _ fun c _ => (k.alike_declareTop config c).located _).bind fun _ =>
    k.alike_declareBody config _ _ _ _

end Setting

/-! ## Modules -/

theorem alike_declareModule (r : Registry) (c c' : BuildConfig) (rank : Nat) (s : Source) :
    Alike (declareModule r c rank s) (declareModule r c' rank s) := by
  refine (alike_check _).bind fun submodules => (alike_check _).bind fun own => ?_
  refine (alike_edit _).bind fun target => Alike.bind (alike_modify ?_) fun _ => ?_
  · exact fun _ _ h => ⟨h.draft, h.uses, h.augments, rfl⟩
  refine (alike_forM _ fun part _ => ?_).bind fun _ => alike_pure _
  refine (alike_check _).bind fun prefixes => ?_
  exact Setting.alike_declareSource _ c' part.root

/-- The configuration decides about deviation tasks, and about nothing else in declaration. -/
theorem alike_declareModules (r : Registry) (c c' : BuildConfig) (order : List Source) :
    Alike (declareModules r c order) (declareModules r c' order) :=
  alike_mapM _ fun p _ => alike_declareModule r c c' p.2 p.1

end YangSchema
