import YangSchema.Definition

/-!
# Schema trees

The finished definitions: nodes, groupings, uses and augmentations.  Nothing in them changes any
more, so a definition holds the definitions that it refers to, its children as well as the
definition that it was copied from (`origin`).  Origins end: following `origin` leads to a
definition that is no copy (`Node.origins`, `Node.rootOrigin`).
-/

namespace YangSchema

mutual

/-- A schema node. -/
structure Node where
  facts : NodeFacts
  /-- Effective `config`: stated here, or inherited. -/
  config : Bool
  /-- In declaration order, merged ones behind. -/
  children : List Node
  groupings : List Grouping
  uses : List Uses
  /-- The augmentations that were merged into this node. -/
  augmentations : List Augmentation
  origin : Option Node

/-- A reusable bundle of definitions. -/
structure Grouping where
  facts : GroupingFacts
  children : List Node
  groupings : List Grouping
  uses : List Uses

/-- An expanded `uses`. -/
structure Uses where
  facts : UsesFacts
  /-- The augmentations written inside the uses. -/
  augmentations : List Augmentation

/-- A resolved `augment`; the nodes are its own, the target holds copies of them. -/
structure Augmentation where
  facts : AugmentFacts
  children : List Node
  uses : List Uses
  origin : Option Augmentation

end

namespace Node

instance : Inhabited Node := ⟨⟨default, true, [], [], [], [], none⟩⟩

def kind (n : Node) : NodeKind := n.facts.kind
def name (n : Node) : QName := n.facts.name
def path (n : Node) : SchemaPath := n.facts.path

/-- Keyword and qualified name. -/
def render (n : Node) : String := n.kind.keyword ++ " " ++ n.name.render

/-- The child with the given name. -/
def child? (n : Node) (q : QName) : Option Node := n.children.find? (·.name == q)

/-- The first child with the given local name, whatever module owns it. -/
def childNamed? (n : Node) (name : String) : Option Node :=
  n.children.find? (·.name.localName == name)

/-- The node at the end of the given steps down. -/
def descendant? (n : Node) : List QName → Option Node
  | [] => some n
  | q :: steps => (n.child? q).bind fun c => c.descendant? steps

/-- The definition that `n` was copied from, the one that was copied from, and so on. -/
def origins (n : Node) : List Node :=
  match n with
  | ⟨_, _, _, _, _, _, none⟩ => []
  | ⟨_, _, _, _, _, _, some o⟩ => o :: o.origins

/-- The definition at the end of the origins: the first one that was no copy. -/
def rootOrigin (n : Node) : Node := n.origins.getLast?.getD n

mutual

/-- The node and everything below it, a node before its children. -/
def preorder : Node → List Node
  | ⟨facts, config, children, groupings, uses, augmentations, origin⟩ =>
    ⟨facts, config, children, groupings, uses, augmentations, origin⟩ :: preorderAll children

def preorderAll : List Node → List Node
  | [] => []
  | n :: rest => preorder n ++ preorderAll rest

end

end Node

namespace Augmentation

instance : Inhabited Augmentation := ⟨⟨default, [], [], none⟩⟩

/-- The augmentation that `a` was copied from, the one that was copied from, and so on. -/
def origins (a : Augmentation) : List Augmentation :=
  match a with
  | ⟨_, _, _, none⟩ => []
  | ⟨_, _, _, some o⟩ => o :: o.origins

/-- By target, then by the place among the declarations. -/
def applyOrder (a b : Augmentation) : Ordering :=
  compareLex (compareOn AugmentFacts.target) (compareOn AugmentFacts.order) a.facts b.facts

end Augmentation

instance : Inhabited Grouping := ⟨⟨default, [], [], []⟩⟩

instance : Inhabited Uses := ⟨⟨default, []⟩⟩

end YangSchema
