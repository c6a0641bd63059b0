import YangSchema.Deviation

/-!
# What definitions say

The parts of a definition that do not depend on the definitions around it: documentation,
constraints, properties, kinds of schema nodes, and what a module says about itself.  They are the
same while a definition is drafted and in the finished schema, so both forms carry one record of
*facts* (`NodeFacts`, `GroupingFacts`, `UsesFacts`, `AugmentFacts`, `ModuleFacts`).
-/

namespace YangSchema

/-! ## Documentation -/

inductive Status where
  | current
  | deprecated
  | obsolete
deriving DecidableEq, Inhabited

namespace Status

def text : Status → String
  | current => "current"
  | deprecated => "deprecated"
  | obsolete => "obsolete"

/-- The status that is written `s`. -/
def parse? (s : String) : Option Status :=
  [current, deprecated, obsolete].find? (·.text == s)

theorem parse?_text (s : Status) : parse? s.text = some s := by cases s <;> decide

end Status

/-- Description, reference and status of a definition. -/
structure Documentation where
  description : Option String := none
  reference : Option String := none
  status : Status := .current
deriving DecidableEq, Inhabited

/-! ## Schema nodes -/

/-- Cardinality and validity; `none` means that nothing was stated, which is not the same as a
stated default. -/
structure Constraints where
  mandatory : Option Bool := none
  minElements : Option Nat := none
  /-- The bound, if one was stated; `unbounded` states none. -/
  maxElements : Option Nat := none
  must : List String := []
  condition : Option String := none
deriving DecidableEq, Inhabited

namespace Constraints

def isMandatory (c : Constraints) : Bool := c.mandatory.getD false

end Constraints

/-- What only some kinds of nodes state. -/
structure Properties where
  /-- The name of the type of a leaf or leaf-list. -/
  typeName : Option String := none
  units : Option String := none
  /-- At most one for a leaf, any number for a leaf-list. -/
  defaults : List String := []
  presence : Option String := none
  unique : List String := []
  orderedByUser : Bool := false
deriving DecidableEq, Inhabited

/-- A statement whose keyword an extension defines. -/
structure UnknownStatement where
  extension : QName
  argument : Option String
  /-- Whether it was copied in by a uses. -/
  byUses : Bool := false
deriving DecidableEq

/-- The kind of a schema node. -/
inductive NodeKind where
  | container
  /-- With the names of the key leaves, in key order. -/
  | list (keys : List QName)
  | leaf
  | leafList
  /-- With the case that holds when nothing else is chosen. -/
  | choice (defaultCase : Option QName)
  /-- A shorthand case stands around a node that was placed directly under a choice. -/
  | caseNode (shorthand : Bool)
  | anyxml
  | anydata
  | rpc
  | action
  | input
  | output
  | notification
deriving DecidableEq, Inhabited

namespace NodeKind

/-- The keyword of the statement that defines such a node. -/
def keyword : NodeKind → String
  | container => "container"
  | list _ => "list"
  | leaf => "leaf"
  | leafList => "leaf-list"
  | choice _ => "choice"
  | caseNode _ => "case"
  | anyxml => "anyxml"
  | anydata => "anydata"
  | rpc => "rpc"
  | action => "action"
  | input => "input"
  | output => "output"
  | notification => "notification"

/-- All kinds, with the given names in the two kinds that have names. -/
def all (keys : List QName) (defaultCase : Option QName) (shorthand : Bool) : List NodeKind :=
  [container, list keys, leaf, leafList, choice defaultCase, caseNode shorthand, anyxml, anydata,
    rpc, action, input, output, notification]

/-- Whether such a node may hold other nodes. -/
def acceptsChildren : NodeKind → Bool
  | leaf | leafList | anyxml | anydata => false
  | _ => true

def isChoice : NodeKind → Bool
  | choice _ => true
  | _ => false

def isCase : NodeKind → Bool
  | caseNode _ => true
  | _ => false

def isShorthandCase : NodeKind → Bool
  | caseNode shorthand => shorthand
  | _ => false

/-- Whether nothing below such a node is configuration. -/
def isOperationOrEvent : NodeKind → Bool
  | rpc | action | input | output | notification => true
  | _ => false

theorem isOperationOrEvent_iff {k : NodeKind} :
    k.isOperationOrEvent = true ↔ k ∈ [rpc, action, input, output, notification] := by
  cases k <;> simp [isOperationOrEvent]

/-- The kind with the names in it bound to the module `m`. -/
def bindTo (m : ModuleIdentity) : NodeKind → NodeKind
  | list keys => list (keys.map (QName.bindTo m))
  | choice defaultCase => choice (defaultCase.map (QName.bindTo m))
  | kind => kind

@[simp] theorem keyword_bindTo (m : ModuleIdentity) (k : NodeKind) :
    (k.bindTo m).keyword = k.keyword := by cases k <;> rfl

end NodeKind

/-- A type definition; its base is kept by name. -/
structure Typedef where
  name : QName
  base : String
  units : Option String := none
  defaultValue : Option String := none
  docs : Documentation := {}
deriving DecidableEq

/-- What a schema node says. -/
structure NodeFacts where
  kind : NodeKind
  name : QName
  path : SchemaPath
  docs : Documentation := {}
  constraints : Constraints := {}
  properties : Properties := {}
  /-- Copied in by a uses. -/
  byUses : Bool := false
  /-- Merged in by an augmentation. -/
  augmenting : Bool := false
  unknown : List UnknownStatement := []
  typedefs : List Typedef := []
deriving DecidableEq, Inhabited

/-! ## Groupings, uses and augmentations -/

structure GroupingFacts where
  name : QName
  path : SchemaPath
  docs : Documentation := {}
  unknown : List UnknownStatement := []
  typedefs : List Typedef := []
deriving DecidableEq, Inhabited

structure UsesFacts where
  /-- Where the grouping is defined. -/
  grouping : SchemaPath
  /-- The refined nodes, as paths from the place of the uses. -/
  refines : List SchemaPath := []
  byUses : Bool := false
  augmenting : Bool := false
deriving DecidableEq, Inhabited

structure AugmentFacts where
  /-- From the schema root; for an augmentation inside a uses, from the place of the uses. -/
  target : SchemaPath
  /-- The place among the declarations of the module. -/
  order : Nat
  /-- The module that declared the augmentation or, for a copy, received it. -/
  home : ModuleIdentity
  condition : Option String := none
  docs : Documentation := {}
  unknown : List UnknownStatement := []
deriving DecidableEq, Inhabited

/-! ## Modules -/

/-- What a source says about itself as a text. -/
structure Header where
  yangVersion : String := "1"
  organization : Option String := none
  contact : Option String := none
  description : Option String := none
  reference : Option String := none
deriving DecidableEq, Inhabited

/-- A module that is imported under a prefix. -/
structure ModuleImport where
  name : String
  binding : String
  revision : Option Revision
deriving DecidableEq

/-- A submodule whose body went into the module. -/
structure SubmoduleRef where
  name : String
  revision : Option Revision
deriving DecidableEq

structure ExtensionDefinition where
  name : QName
  /-- The name of the argument, if the extension takes one. -/
  argument : Option String := none
  docs : Documentation := {}
deriving DecidableEq

structure FeatureDefinition where
  name : QName
  docs : Documentation := {}
deriving DecidableEq

structure IdentityDefinition where
  name : QName
  bases : List QName := []
  docs : Documentation := {}
deriving DecidableEq

/-- What a module says. -/
structure ModuleFacts where
  name : String
  identity : ModuleIdentity
  ownPrefix : String
  header : Header := {}
  imports : List ModuleImport := []
  submodules : List SubmoduleRef := []
  typedefs : List Typedef := []
  extensions : List ExtensionDefinition := []
  features : List FeatureDefinition := []
  identities : List IdentityDefinition := []
  deviations : List Deviation := []
  unknown : List UnknownStatement := []
deriving DecidableEq, Inhabited

end YangSchema
