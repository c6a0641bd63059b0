import YangSchema.Schema.Module

/-!
# Drafts

While a schema is built, its definitions live in a draft and name one another by ids.  A draft has a
shelf for each kind of definition; ids count the records of a shelf in the order in which they were
added.  A record can be edited until its snapshot is taken: then the snapshot stands for it, and
edits of the record are refused (`Fault`s with the cause `InternalProblem.alreadyFrozen`).

Edits run in the monad `Edit`.  An edit that fails leaves behind what it had done up to there, so
the draft is part of the answer in either case (`Edit.perform`).
-/

namespace YangSchema

/-! ## Shelves -/

/-- A record and, once it is frozen, its snapshot. -/
structure Slot (ρ σ : Type) where
  record : ρ
  snapshot : Option σ := none

structure Shelf (ρ σ : Type) where
  slots : Array (Slot ρ σ) := #[]

namespace Shelf

variable {ρ σ : Type}

def size (s : Shelf ρ σ) : Nat := s.slots.size

/-- The record at a place; the blank record where there is none. -/
def read [Inhabited ρ] (s : Shelf ρ σ) (i : Nat) : ρ := (s.slots[i]?.map Slot.record).getD default

def snapshot? (s : Shelf ρ σ) (i : Nat) : Option σ := s.slots[i]?.bind Slot.snapshot

def isFrozen (s : Shelf ρ σ) (i : Nat) : Bool := (s.snapshot? i).isSome

def push (s : Shelf ρ σ) (r : ρ) : Shelf ρ σ := ⟨s.slots.push { record := r }⟩

def update (s : Shelf ρ σ) (i : Nat) (f : ρ → ρ) : Shelf ρ σ :=
  ⟨s.slots.modify i fun slot => { slot with record := f slot.record }⟩

/-- Takes a snapshot. -/
def freeze (s : Shelf ρ σ) (i : Nat) (v : σ) : Shelf ρ σ :=
  ⟨s.slots.modify i fun slot => { slot with snapshot := some v }⟩

/-! ### Lemmas -/

@[simp] theorem size_push (s : Shelf ρ σ) (r : ρ) : (s.push r).size = s.size + 1 := by
  simp [push, size]

theorem lt_size_push (s : Shelf ρ σ) (r : ρ) : s.size < (s.push r).size := by
  rw [size_push]
  exact Nat.lt_succ_self _

theorem size_le_size_push (s : Shelf ρ σ) (r : ρ) : s.size ≤ (s.push r).size :=
  Nat.le_of_lt (s.lt_size_push r)

@[simp] theorem size_update (s : Shelf ρ σ) (i : Nat) (f : ρ → ρ) :
    (s.update i f).size = s.size := by simp [update, size]

@[simp] theorem size_freeze (s : Shelf ρ σ) (i : Nat) (v : σ) : (s.freeze i v).size = s.size := by
  simp [freeze, size]

variable [Inhabited ρ]

theorem read_push (s : Shelf ρ σ) (r : ρ) (i : Nat) :
    (s.push r).read i = if i = s.size then r else s.read i := by
  simp only [read, push, size, Array.getElem?_push]
  split <;> simp_all

theorem read_update (s : Shelf ρ σ) (i j : Nat) (f : ρ → ρ) :
    (s.update i f).read j = if i = j ∧ j < s.size then f (s.read j) else s.read j := by
  simp only [read, update, size, Array.getElem?_modify]
  by_cases hij : i = j
  · subst hij
    cases h : s.slots[i]? with
    | none => simp [Nat.not_lt.2 (Array.getElem?_eq_none_iff.1 h)]
    | some slot => simp [(Array.getElem?_eq_some_iff.1 h).1]
  · simp [hij]

@[simp] theorem read_freeze (s : Shelf ρ σ) (i j : Nat) (v : σ) :
    (s.freeze i v).read j = s.read j := by
  simp only [read, freeze, Array.getElem?_modify]
  split <;> simp_all [Function.comp_def]

end Shelf

/-! ## Ids -/

structure NodeId where
  index : Nat
deriving DecidableEq, Inhabited

structure GroupingId where
  index : Nat
deriving DecidableEq, Inhabited

structure UsesId where
  index : Nat
deriving DecidableEq, Inhabited

structure AugmentId where
  index : Nat
deriving DecidableEq, Inhabited

structure ModuleId where
  index : Nat
deriving DecidableEq, Inhabited

def NodeId.render (i : NodeId) : String := "node#" ++ toString i.index
def GroupingId.render (i : GroupingId) : String := "grouping#" ++ toString i.index
def UsesId.render (i : UsesId) : String := "uses#" ++ toString i.index
def AugmentId.render (i : AugmentId) : String := "augment#" ++ toString i.index
def ModuleId.render (i : ModuleId) : String := "module#" ++ toString i.index

/-- What holds nodes: the top level of a module, a node, or the body of a grouping or of an
augmentation. -/
inductive Site where
  | module (i : ModuleId)
  | node (i : NodeId)
  | grouping (i : GroupingId)
  | augment (i : AugmentId)
deriving DecidableEq, Inhabited

def Site.render : Site → String
  | .module i => i.render
  | .node i => i.render
  | .grouping i => i.render
  | .augment i => i.render

/-! ## Records -/

structure NodeDraft where
  facts : NodeFacts
  /-- `config` as stated; without it the value is inherited. -/
  config : Option Bool := none
  children : List NodeId := []
  groupings : List GroupingId := []
  uses : List UsesId := []
  augmentations : List AugmentId := []
  origin : Option NodeId := none
  /-- Where the node is attached. -/
  parent : Option Site := none
deriving Inhabited

namespace NodeDraft

/-- A node that is attached nowhere, under the schema root for the time being. -/
def blank (kind : NodeKind) (name : QName) : NodeDraft :=
  { facts := { kind, name, path := SchemaPath.root.child name } }

def kind (n : NodeDraft) : NodeKind := n.facts.kind
def name (n : NodeDraft) : QName := n.facts.name
def path (n : NodeDraft) : SchemaPath := n.facts.path
def constraints (n : NodeDraft) : Constraints := n.facts.constraints
def properties (n : NodeDraft) : Properties := n.facts.properties

def setConstraints (n : NodeDraft) (c : Constraints) : NodeDraft :=
  { n with facts := { n.facts with constraints := c } }

def setProperties (n : NodeDraft) (p : Properties) : NodeDraft :=
  { n with facts := { n.facts with properties := p } }

end NodeDraft

structure GroupingDraft where
  facts : GroupingFacts
  children : List NodeId := []
  groupings : List GroupingId := []
  uses : List UsesId := []
deriving Inhabited

structure UsesDraft where
  facts : UsesFacts
  augmentations : List AugmentId := []
deriving Inhabited

structure AugmentDraft where
  facts : AugmentFacts
  children : List NodeId := []
  uses : List UsesId := []
  origin : Option AugmentId := none
deriving Inhabited

structure ModuleDraft where
  facts : ModuleFacts
  children : List NodeId := []
  groupings : List GroupingId := []
  augmentations : List AugmentId := []
  uses : List UsesId := []
deriving Inhabited

/-! ## Drafts -/

structure Draft where
  nodes : Shelf NodeDraft Node := {}
  groupings : Shelf GroupingDraft Grouping := {}
  uses : Shelf UsesDraft Uses := {}
  augments : Shelf AugmentDraft Augmentation := {}
  modules : Shelf ModuleDraft Module := {}

namespace Draft

instance : Inhabited Draft := ⟨{}⟩

def node (d : Draft) (i : NodeId) : NodeDraft := d.nodes.read i.index
def grouping (d : Draft) (i : GroupingId) : GroupingDraft := d.groupings.read i.index
def usesOf (d : Draft) (i : UsesId) : UsesDraft := d.uses.read i.index
def augment (d : Draft) (i : AugmentId) : AugmentDraft := d.augments.read i.index
def module (d : Draft) (i : ModuleId) : ModuleDraft := d.modules.read i.index

/-- How many records there are: no chain of different definitions is longer. -/
def size (d : Draft) : Nat :=
  d.nodes.size + d.groupings.size + d.uses.size + d.augments.size + d.modules.size

/-- The path under which the children of a site are placed. -/
def pathOf (d : Draft) : Site → SchemaPath
  | .module _ => .root
  | .node i => (d.node i).path
  | .grouping i => (d.grouping i).facts.path
  | .augment i => (d.augment i).facts.target

def childrenOf (d : Draft) : Site → List NodeId
  | .module i => (d.module i).children
  | .node i => (d.node i).children
  | .grouping i => (d.grouping i).children
  | .augment i => (d.augment i).children

end Draft

/-! ## Edits -/

/-- Computations that change a draft and may fail half way. -/
abbrev Edit := ExceptT Fault (StateM Draft)

/-- Runs an edit; the draft is as the edit left it, also when it failed. -/
def Edit.perform {α : Type} (e : Edit α) (d : Draft) : Except Fault α × Draft :=
  (ExceptT.run e).run d

namespace Draft

/-- Refuses to go on when a record is frozen already. -/
def requireOpen (frozen : Bool) (id : String) : Edit Unit :=
  if frozen then throw (.internal (.alreadyFrozen id)) else pure ()

def addNode (r : NodeDraft) : Edit NodeId :=
  modifyGet fun d => (⟨d.nodes.size⟩, { d with nodes := d.nodes.push r })

def addGrouping (r : GroupingDraft) : Edit GroupingId :=
  modifyGet fun d => (⟨d.groupings.size⟩, { d with groupings := d.groupings.push r })

def addUses (r : UsesDraft) : Edit UsesId :=
  modifyGet fun d => (⟨d.uses.size⟩, { d with uses := d.uses.push r })

def addAugment (r : AugmentDraft) : Edit AugmentId :=
  modifyGet fun d => (⟨d.augments.size⟩, { d with augments := d.augments.push r })

def editNode (i : NodeId) (f : NodeDraft → NodeDraft) : Edit Unit := do
  requireOpen ((← get).nodes.isFrozen i.index) i.render
  modify fun d => { d with nodes := d.nodes.update i.index f }

def editGrouping (i : GroupingId) (f : GroupingDraft → GroupingDraft) : Edit Unit := do
  requireOpen ((← get).groupings.isFrozen i.index) i.render
  modify fun d => { d with groupings := d.groupings.update i.index f }

def editUses (i : UsesId) (f : UsesDraft → UsesDraft) : Edit Unit := do
  requireOpen ((← get).uses.isFrozen i.index) i.render
  modify fun d => { d with uses := d.uses.update i.index f }

def editAugment (i : AugmentId) (f : AugmentDraft → AugmentDraft) : Edit Unit := do
  requireOpen ((← get).augments.isFrozen i.index) i.render
  modify fun d => { d with augments := d.augments.update i.index f }

def editModule (i : ModuleId) (f : ModuleDraft → ModuleDraft) : Edit Unit := do
  requireOpen ((← get).modules.isFrozen i.index) i.render
  modify fun d => { d with modules := d.modules.update i.index f }

/-- Changes the child list of a site. -/
def editChildren (s : Site) (f : List NodeId → List NodeId) : Edit Unit :=
  match s with
  | .module i => editModule i fun r => { r with children := f r.children }
  | .node i => editNode i fun r => { r with children := f r.children }
  | .grouping i => editGrouping i fun r => { r with children := f r.children }
  | .augment i => editAugment i fun r => { r with children := f r.children }

/-- Puts a uses at the end of the uses of a site. -/
def pushUses (s : Site) (u : UsesId) : Edit Unit :=
  match s with
  | .module i => editModule i fun r => { r with uses := r.uses ++ [u] }
  | .node i => editNode i fun r => { r with uses := r.uses ++ [u] }
  | .grouping i => editGrouping i fun r => { r with uses := r.uses ++ [u] }
  | .augment i => editAugment i fun r => { r with uses := r.uses ++ [u] }

/-- Puts unknown statements at the end of those of a site. -/
def pushUnknown (s : Site) (us : List UnknownStatement) : Edit Unit :=
  match s with
  | .module i => editModule i fun r =>
    { r with facts := { r.facts with unknown := r.facts.unknown ++ us } }
  | .node i => editNode i fun r =>
    { r with facts := { r.facts with unknown := r.facts.unknown ++ us } }
  | .grouping i => editGrouping i fun r =>
    { r with facts := { r.facts with unknown := r.facts.unknown ++ us } }
  | .augment i => editAugment i fun r =>
    { r with facts := { r.facts with unknown := r.facts.unknown ++ us } }

end Draft

end YangSchema
