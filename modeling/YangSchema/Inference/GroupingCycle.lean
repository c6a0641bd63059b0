import YangSchema.Inference.Expansion
import YangSchema.Ordered

/-!
# Circular groupings

A grouping that uses itself, directly or through others, could never be expanded.  `UsesTask`s give
the edges from the grouping that a uses stands in to the grouping that it names, and
`checkGroupings` fails with the names along a cycle if there is one.
-/

namespace YangSchema

/-- `user` has a uses of `used` in its body. -/
structure GroupingEdge where
  user : GroupingId
  used : GroupingId
deriving DecidableEq

/-- The edge that a task stands for, if it stands in a grouping and names one that is there. -/
def UsesTask.edge? (t : UsesTask) (d : Draft) : Option GroupingEdge := do
  return ⟨← t.innermostGrouping, ← t.resolve d⟩

/-- The groupings that `g` uses, in the order of their ids, each once. -/
def usedBy (edges : List GroupingEdge) (g : GroupingId) : List GroupingId :=
  orderedBy GroupingId.index ((edges.filter (·.user == g)).map GroupingEdge.used)

/-- Goes down the edges from `g`.  `trail` holds the groupings on the way to `g`, and `done` those
that are known to be on no cycle; a grouping that is met again on its own trail closes one.  The
trail never holds a grouping twice, and `fuel` counts the ends of edges that are left for it. -/
def visitGrouping (d : Draft) (edges : List GroupingEdge) (fuel : Nat) (trail : List GroupingId)
    (done : List GroupingId) (g : GroupingId) : Except Fault (List GroupingId) :=
  if done.contains g then .ok done
  else if trail.contains g then
    .error ⟨.circularGrouping ((trail.dropWhile (· != g) ++ [g]).map fun h =>
      (d.grouping h).facts.name.localName), none⟩
  else match fuel with
    | 0 => .error (.nestedInItself g.render)
    | fuel + 1 => do
      let done ← (usedBy edges g).foldlM (visitGrouping d edges fuel (trail ++ [g])) done
      return done ++ [g]

/-- No grouping may use itself through the given tasks. -/
def checkGroupings (d : Draft) (tasks : List UsesTask) : Except Fault Unit := do
  let edges := tasks.filterMap (·.edge? d)
  let users := orderedBy GroupingId.index (edges.map GroupingEdge.user)
  discard <| users.foldlM (visitGrouping d edges (2 * edges.length) []) []

end YangSchema
