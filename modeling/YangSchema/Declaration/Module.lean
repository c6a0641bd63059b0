import YangSchema.Declaration.Body
import YangSchema.Linkage

/-!
# Declaring modules

The statements that stand only at the top of a source, namely extensions, features, identities,
augmentations and deviations, are declared first, then the body of the source.  Augmentations and the
deviations that take effect are recorded as tasks.
-/

namespace YangSchema

namespace Setting

/-- Changes what the module says about itself. -/
def editFacts (k : Setting) (f : ModuleFacts → ModuleFacts) : Declare Unit :=
  Declare.edit (Draft.editModule k.target fun r => { r with facts := f r.facts })

/-! ## Extensions, features and identities -/

def declareExtension (k : Setting) (stmt : Statement) : Declare Unit := do
  let name := k.prefixes.ownName (← Declare.check stmt.requireArgument)
  let docs ← Declare.check stmt.documentation
  let argument := stmt.argumentOf (.word .argument)
  k.editFacts fun f => { f with extensions := f.extensions ++ [{ name, argument, docs }] }

def declareFeature (k : Setting) (stmt : Statement) : Declare Unit := do
  let name := k.prefixes.ownName (← Declare.check stmt.requireArgument)
  let docs ← Declare.check stmt.documentation
  k.editFacts fun f => { f with features := f.features ++ [{ name, docs }] }

def declareIdentity (k : Setting) (stmt : Statement) : Declare Unit := do
  let name := k.prefixes.ownName (← Declare.check stmt.requireArgument)
  let bases ← Declare.check <| (stmt.all (.word .base)).mapM fun b => do
    k.prefixes.qname (← b.requireArgument)
  let docs ← Declare.check stmt.documentation
  k.editFacts fun f => { f with identities := f.identities ++ [{ name, bases, docs }] }

/-! ## Augmentations and deviations -/

/-- The target of a statement at the top of a source; `what` names the statement. -/
def absolutePath (k : Setting) (what : String) (stmt : Statement) : Except Fault SchemaPath := do
  let e ← PathExpr.parse (← stmt.requireArgument)
  if !e.absolute then
    throw (.malformed (.notAnAbsolutePath what e.render))
  k.prefixes.path e

def declareTopAugment (k : Setting) (stmt : Statement) : Declare Unit := do
  let target ← Declare.check (k.absolutePath "top-level 'augment'" stmt)
  let order ← Declare.nextOrder
  let a ← k.declareAugment stmt target order
  Declare.edit (Draft.editModule k.target fun r =>
    { r with augmentations := r.augmentations ++ [a] })
  k.declareBody (.augment a) stmt [] [.augment a]
  Declare.addAugmentTask {
    augment := a, target, order
    rank := k.rank
    trace := k.trace stmt }

/-- The module that a deviation deviates; it must be another one. -/
def deviatedModule (k : Setting) (target : SchemaPath) : Except Fault ModuleIdentity :=
  match target.last? with
  | none => .error (.malformed .emptyDeviationTarget)
  | some q =>
    if q.owner == k.own then
      .error ⟨.illegalDeviation
        ("Deviation must not target the same module as the one it is defined in: " ++
          target.render), none⟩
    else .ok q.owner

/-- Lists a deviation with its module, and records it as a task if it takes effect. -/
def declareDeviation (k : Setting) (stmt : Statement) : Declare Unit := do
  let target ← Declare.check (k.absolutePath "'deviation'" stmt)
  let deviated ← Declare.check (k.deviatedModule target)
  let deviates ← (stmt.all (.word .deviate)).mapM fun d =>
    located (k.trace d) (Declare.check d.readDeviate)
  let deviation : Deviation := {
    target, deviates
    description := stmt.argumentOf (.word .description)
    reference := stmt.argumentOf (.word .reference) }
  let order ← Declare.nextOrder
  k.editFacts fun f => { f with deviations := f.deviations ++ [deviation] }
  if k.config.allowsDeviation deviated k.own then
    Declare.addDeviationTask { deviation, order, rank := k.rank, trace := k.trace stmt }

/-! ## Sources and modules -/

/-- Declares a statement that stands only at the top of a source. -/
def declareTop (k : Setting) (stmt : Statement) : Declare Unit :=
  match stmt.keyword with
  | .word .extensionWord => k.declareExtension stmt
  | .word .feature => k.declareFeature stmt
  | .word .identity => k.declareIdentity stmt
  | .word .augment => k.declareTopAugment stmt
  | .word .deviation => k.declareDeviation stmt
  | _ => pure ()

/-- Declares everything in a source. -/
def declareSource (k : Setting) (root : Statement) : Declare Unit := do
  root.children.forM fun c => located (k.trace c) (k.declareTop c)
  k.declareBody (.module k.target) root [] []

end Setting

/-- What a module says about itself before its body is declared. -/
def Source.moduleFacts (s : Source) (own : ModuleIdentity) (submodules : List Source) :
    ModuleFacts where
  name := s.name
  identity := own
  ownPrefix := s.ownPrefix
  header := s.header
  imports := s.imports.map fun i => ⟨i.name, i.binding, i.revision⟩
  submodules := submodules.map fun sub => ⟨sub.name, sub.revision⟩

/-- Declares a module and the submodules that go into it.  A submodule may belong to several
revisions of its parent; what it defines is bound to the one at hand. -/
def declareModule (r : Registry) (config : BuildConfig) (rank : Nat) (s : Source) :
    Declare ModuleId := do
  let submodules ← Declare.check (r.includedBy s)
  let own ← Declare.check (r.effectiveIdentity s)
  let target ← Declare.edit (Draft.addModule { facts := s.moduleFacts own submodules })
  modify fun w => { w with nextOrder := 0 }
  (s :: submodules).forM fun part => do
    let prefixes ← Declare.check (Prefixes.ofSource r part)
    let k : Setting := { prefixes := { prefixes with own }, target, rank, config }
    k.declareSource part.root
  return target

end YangSchema
