import YangSchema.DeviationPolicy
import YangSchema.Inference.Task
import YangSchema.Prefixes

/-!
# The workspace of declaration

Declaring sources fills a draft and collects tasks; both are in the workspace.  The declarations of
a module and its submodules that have to be told apart later are numbered through.
-/

namespace YangSchema

structure Workspace where
  draft : Draft := {}
  tasks : Tasks := {}
  /-- The number of the next declaration of the module. -/
  nextOrder : Nat := 0

instance : Inhabited Workspace := ⟨{}⟩

/-- What is known about the source that is declared. -/
structure Setting where
  prefixes : Prefixes
  /-- The module that the definitions go into. -/
  target : ModuleId
  /-- The place of the module in linkage order. -/
  rank : Nat
  config : BuildConfig

namespace Setting

/-- The trace of a fault at a statement of the source. -/
def trace (k : Setting) (s : Statement) : Trace := s.trace k.prefixes.source

/-- The identity that the definitions of the source are bound to. -/
def own (k : Setting) : ModuleIdentity := k.prefixes.own

end Setting

/-- Declarations: they change the workspace, or fail. -/
abbrev Declare := StateT Workspace (Except Fault)

namespace Declare

/-- Edits the draft of the workspace. -/
def edit {α : Type} (e : Edit α) : Declare α := fun w =>
  match e.perform w.draft with
  | (.ok a, d) => .ok (a, { w with draft := d })
  | (.error f, _) => .error f

/-- Something that may fail but leaves the workspace alone. -/
def check {α : Type} (x : Except Fault α) : Declare α := fun w => x.map (·, w)

/-- Numbers a declaration. -/
def nextOrder : Declare Nat := modifyGet fun w => (w.nextOrder, { w with nextOrder := w.nextOrder + 1 })

def addUsesTask (t : UsesTask) : Declare Unit :=
  modify fun w => { w with tasks := { w.tasks with uses := w.tasks.uses ++ [t] } }

def addAugmentTask (t : AugmentTask) : Declare Unit :=
  modify fun w => { w with tasks := { w.tasks with augments := w.tasks.augments ++ [t] } }

def addDeviationTask (t : DeviationTask) : Declare Unit :=
  modify fun w => { w with tasks := { w.tasks with deviations := w.tasks.deviations ++ [t] } }

end Declare

end YangSchema
