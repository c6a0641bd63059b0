import YangSchema.Schema.Tree

/-!
# Modules

A finished module: what it says about itself, its data nodes, rpcs and notifications, and its
groupings, uses and augmentations.
-/

namespace YangSchema

structure Module where
  facts : ModuleFacts
  /-- The top-level nodes that are neither rpcs nor notifications. -/
  children : List Node
  rpcs : List Node
  notifications : List Node
  groupings : List Grouping
  augmentations : List Augmentation
  uses : List Uses

namespace Module

instance : Inhabited Module := ⟨⟨default, [], [], [], [], [], []⟩⟩

def name (m : Module) : String := m.facts.name
def identity (m : Module) : ModuleIdentity := m.facts.identity
def revision (m : Module) : Option Revision := m.identity.revision

/-- All top-level nodes: data nodes, then rpcs, then notifications. -/
def topLevel (m : Module) : List Node := m.children ++ m.rpcs ++ m.notifications

/-- The data node with the given name at the top level. -/
def child? (m : Module) (q : QName) : Option Node := m.children.find? (·.name == q)

/-- The first data node with the given local name at the top level. -/
def childNamed? (m : Module) (name : String) : Option Node :=
  m.children.find? (·.name.localName == name)

/-- The node at the given path below the module. -/
def findNode (m : Module) (p : SchemaPath) : Option Node :=
  match p.steps with
  | [] => none
  | q :: steps => (m.topLevel.find? (·.name == q)).bind fun n => n.descendant? steps

/-- The name, and the revision after an `@`. -/
def render (m : Module) : String :=
  match m.revision with
  | some r => m.name ++ "@" ++ r.text
  | none => m.name

end Module

end YangSchema
