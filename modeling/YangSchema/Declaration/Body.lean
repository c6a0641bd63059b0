import YangSchema.Declaration.Arguments
import YangSchema.Declaration.Workspace
import YangSchema.Draft.Edit

/-!
# Declaring bodies

The body of a module, node, grouping or augmentation is declared in three steps: its groupings, so
that every uses in the body can see them wherever it stands; their bodies; and then everything else
in source order.  A uses is only recorded here, as a task with the groupings that it can see.
-/

namespace YangSchema

namespace Setting

/-! ## Groupings, type definitions and extensions -/

/-- Adds a grouping with an empty body; answers its name and id. -/
def declareGrouping (k : Setting) (s : Site) (stmt : Statement) : Declare (QName × GroupingId) := do
  let name := k.prefixes.ownName (← Declare.check stmt.requireArgument)
  let docs ← Declare.check stmt.documentation
  let path := ((← get).draft.pathOf s).child name
  let g ← Declare.edit (Draft.addGrouping { facts := { name, path, docs } })
  Declare.edit (Draft.pushGrouping s g)
  return (name, g)

def declareTypedef (k : Setting) (s : Site) (stmt : Statement) : Declare Unit := do
  let name := k.prefixes.ownName (← Declare.check stmt.requireArgument)
  let some base := stmt.argumentOf (.word .type)
    | throw (.malformed (.typedefWithoutType name.localName))
  let docs ← Declare.check stmt.documentation
  Declare.edit (Draft.pushTypedef s {
    name, base, docs
    units := stmt.argumentOf (.word .units)
    defaultValue := stmt.argumentOf (.word .defaultWord) })

/-! ## Nodes -/

/-- Adds the node that the statement defines, without its body. -/
def declareNode (k : Setting) (s : Site) (stmt : Statement) (kind : Except Fault NodeKind) :
    Declare NodeId := do
  let name := k.prefixes.ownName (← Declare.check stmt.nodeName)
  let kind ← Declare.check kind
  let docs ← Declare.check stmt.documentation
  let config ← Declare.check (stmt.valueOf readBool .config)
  let constraints ← Declare.check stmt.constraints
  let blank := NodeDraft.blank kind name
  let i ← Declare.edit (Draft.addNode { blank with
    config
    facts := { blank.facts with docs, constraints, properties := stmt.properties kind } })
  discard <| Declare.edit (Draft.attach s i)
  return i

/-! ## Uses -/

/-- The target of a refine or augment inside a uses: a path from the place of the uses, all of it in
the own module. -/
def descendantPath (k : Setting) (stmt : Statement) : Except Fault SchemaPath := do
  let e ← PathExpr.parse (← stmt.requireArgument)
  if e.absolute then
    throw (.malformed (.notADescendantPath stmt.keyword.text e.render))
  let p ← k.prefixes.path e
  return { p.bindTo k.own with absolute := false }

def readRefine (k : Setting) (stmt : Statement) : Except Fault RefineTask := do
  let target ← k.descendantPath stmt
  let config ← stmt.valueOf readBool .config
  let mandatory ← stmt.valueOf readBool .mandatory
  let minElements ← stmt.valueOf readNatural .minElements
  let maxElements ← stmt.valueOf readBound .maxElements
  let unknown ← (stmt.children.filterMap (·.unknown? k.prefixes)).mapM id
  return {
    target
    trace := k.trace stmt
    refinement := {
      description := stmt.argumentOf (.word .description)
      reference := stmt.argumentOf (.word .reference)
      presence := stmt.argumentOf (.word .presence)
      must := stmt.argumentsOf (.word .must)
      defaults := stmt.argumentsOf (.word .defaultWord)
      config, mandatory, minElements, maxElements, unknown } }

/-- Adds the augmentation that the statement defines, without its body. -/
def declareAugment (k : Setting) (stmt : Statement) (target : SchemaPath) (order : Nat) :
    Declare AugmentId := do
  let docs ← Declare.check stmt.documentation
  Declare.edit (Draft.addAugment { facts := {
    target, order, docs
    home := k.own
    condition := stmt.argumentOf (.word .when) } })

/-- How the body of a statement is declared at a site, given the groupings that can be seen from
around the body and the bodies around it. -/
abbrev BodyDeclarer := Site → Statement → Scope → List Owner → Declare Unit

/-- Adds a uses with the augmentations in it, and records its expansion as a task. -/
def declareUses (k : Setting) (body : BodyDeclarer) (s : Site) (stmt : Statement) (scope : Scope)
    (enclosing : List Owner) : Declare Unit := do
  let grouping ← Declare.check do k.prefixes.qname (← stmt.requireArgument)
  let u ← Declare.edit (Draft.addUses { facts := { grouping := SchemaPath.root.child grouping } })
  Declare.edit (Draft.pushUses s u)
  let refines ← (stmt.all (.word .refine)).mapM fun c =>
    located (k.trace c) (Declare.check (k.readRefine c))
  Declare.edit (Draft.editUses u fun r =>
    { r with facts := { r.facts with refines := refines.map RefineTask.target } })
  (stmt.all (.word .augment)).forM fun c => located (k.trace c) do
    let target ← Declare.check (k.descendantPath c)
    let a ← k.declareAugment c target (← Declare.nextOrder)
    body (.augment a) c scope (enclosing ++ [.augment a])
    Declare.edit (Draft.editUses u fun r => { r with augmentations := r.augmentations ++ [a] })
  Declare.addUsesTask {
    uses := u, site := s, grouping, scope, enclosing, refines
    home := k.own
    trace := k.trace stmt }

/-! ## Bodies -/

/-- Declares one statement of a body; a grouping is declared before, with the body. -/
def declareStatement (k : Setting) (body : BodyDeclarer) (s : Site) (stmt : Statement)
    (scope : Scope) (enclosing : List Owner) : Declare Unit := do
  if let some kind := stmt.nodeKind? k.prefixes then
    let i ← k.declareNode s stmt kind
    body (.node i) stmt scope enclosing
  else if let some unknown := stmt.unknown? k.prefixes then
    Declare.edit (Draft.pushUnknown s [← Declare.check unknown])
  else match stmt.keyword, s with
    | .word .uses, _ => k.declareUses body s stmt scope enclosing
    | .word .typedef, _ => k.declareTypedef s stmt
    | .word .augment, .module _ | .word .deviation, .module _ => return
    | .word .augment, _ | .word .deviation, _ =>
      throw (.malformed (.onlyAtModuleLevel stmt.keyword.text))
    | _, _ => return

/-- Declares the body of a statement.  Each body is less deep than the one that it stands in, so the
depth of the statement is enough `fuel`. -/
def declareBodyUpTo (k : Setting) : Nat → BodyDeclarer
  | 0, _, stmt, _, _ => throw (.nestedInItself stmt.render)
  | fuel + 1, s, stmt, scope, enclosing => do
    let groupings ← (stmt.all (.word .grouping)).mapM fun c =>
      located (k.trace c) do return (← k.declareGrouping s c, c)
    let scope := (groupings.map Prod.fst).reverse ++ scope
    groupings.forM fun ((_, g), c) => located (k.trace c) do
      k.declareBodyUpTo fuel (.grouping g) c scope (enclosing ++ [.grouping g])
    stmt.children.forM fun c => located (k.trace c) do
      k.declareStatement (k.declareBodyUpTo fuel) s c scope enclosing

def declareBody (k : Setting) : BodyDeclarer := fun s stmt => k.declareBodyUpTo stmt.depth s stmt

end Setting

end YangSchema
