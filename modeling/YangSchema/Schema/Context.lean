import YangSchema.Ordered
import YangSchema.Schema.Module

/-!
# Schemas

A schema is a list of modules, each after the modules that it imports.  Modules are found by name or
by namespace; where several revisions match, they are told apart by date and the latest is the one
meant if no revision is asked for.
-/

namespace YangSchema

structure Schema where
  modules : List Module

namespace Schema

instance : Inhabited Schema := ⟨⟨[]⟩⟩

def size (s : Schema) : Nat := s.modules.length
def isEmpty (s : Schema) : Bool := s.modules.isEmpty

/-! ## Finding modules -/

/-- The revisions of the modules that `p` selects, oldest first; of two modules with the same
revision the later one in the schema counts. -/
def editions (s : Schema) (p : Module → Bool) : List Module :=
  orderedBy Module.revision (s.modules.filter p)

/-- The module of this name and revision; the latest of the name if no revision is asked for. -/
def findModule (s : Schema) (name : String) (revision : Option Revision) : Option Module :=
  let found := s.editions (·.name == name)
  match revision with
  | some _ => found.find? (·.revision == revision)
  | none => found.getLast?

/-- All revisions of the modules with this namespace, oldest first. -/
def findModulesByNamespace (s : Schema) (uri : String) : List Module :=
  s.editions (·.identity.namespaceUri == uri)

/-- The module with exactly this identity. -/
def findModuleByIdentity (s : Schema) (i : ModuleIdentity) : Option Module :=
  (s.findModulesByNamespace i.namespaceUri).find? (·.revision == i.revision)

/-! ## Finding nodes -/

/-- The node at an absolute path; the first step says which module it is in. -/
def findNode (s : Schema) (p : SchemaPath) : Option Node := do
  let first ← p.first?
  let m ← s.findModuleByIdentity first.owner
  m.findNode p

/-! ## Views over all modules -/

def dataDefinitions (s : Schema) : List Node := s.modules.flatMap Module.children
def notifications (s : Schema) : List Node := s.modules.flatMap Module.notifications
def operations (s : Schema) : List Node := s.modules.flatMap Module.rpcs
def extensions (s : Schema) : List ExtensionDefinition := s.modules.flatMap (·.facts.extensions)

/-- The module-level augmentations in the order in which they take effect. -/
def augmentationsInOrder (s : Schema) : List Augmentation :=
  (s.modules.flatMap Module.augmentations).mergeSort fun a b => (a.applyOrder b).isLE

end Schema

end YangSchema
