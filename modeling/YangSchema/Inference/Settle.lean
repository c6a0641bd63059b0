import YangSchema.Inference.Expansion

/-!
# Running uses and augmentations to the end

Uses and augmentations wait for one another: an augmentation may bring a node that another one
augments, and a grouping has to be final before it is copied.  The tasks are tried in passes, all
uses and then all augmentations, until a pass carries out none of them.  What is left then can never
be carried out, and its first task is reported.
-/

namespace YangSchema

/-- Tries the uses in turn; `kept` are those tried before in this pass and put off.  Answers what is
left. -/
def expandPass (kept : List UsesTask) : List UsesTask → Edit (List UsesTask)
  | [] => return kept
  | t :: rest => do
    let busy := (kept ++ rest).flatMap UsesTask.occupies
    match ← located t.trace (t.attempt busy) with
    | .applied => expandPass kept rest
    | .blocked => expandPass (kept ++ [t]) rest

/-- Whether uses in the body of the augmentation have to be expanded yet. -/
def AugmentTask.isWaiting (t : AugmentTask) (uses : List UsesTask) : Bool :=
  uses.any fun u => u.enclosing.contains (.augment t.augment)

/-- Tries the augmentations in turn.  One that is put off holds back those of the same target behind
it, so that they take effect in order.  Answers what is left. -/
def augmentPass (uses : List UsesTask) (kept : List AugmentTask) :
    List AugmentTask → Edit (List AugmentTask)
  | [] => return kept
  | t :: rest => do
    let progress ←
      if kept.any (·.target == t.target) || t.isWaiting uses then pure .blocked
      else located t.trace t.attempt
    match progress with
    | .applied => augmentPass uses kept rest
    | .blocked => augmentPass uses (kept ++ [t]) rest

/-- Tries all tasks in passes as long as a pass carries out some; answers what is left. -/
def settle (uses : List UsesTask) (augments : List AugmentTask) :
    Edit (List UsesTask × List AugmentTask) := do
  let uses' ← expandPass [] uses
  let augments' ← augmentPass uses' [] augments
  if uses'.length + augments'.length < uses.length + augments.length then settle uses' augments'
  else return (uses', augments')
termination_by uses.length + augments.length

/-- Expands all uses and merges all augmentations, these in the order of their targets. -/
def infer (tasks : Tasks) : Edit Unit := do
  let augments := tasks.augments.mergeSort fun a b => (a.applyOrder b).isLE
  match ← settle tasks.uses augments with
  | (t :: _, _) => throw ((Fault.unresolved "grouping" t.grouping.render).locate t.trace)
  | ([], t :: _) => throw ((Fault.unresolved "augment target" t.target.render).locate t.trace)
  | ([], []) => return

end YangSchema
