import YangSchema.Definition
import YangSchema.Statement

/-!
# Sources

Before sources are linked, each root statement is read into a `Source`: what the source is, what it
is called, and which other sources it needs.  `Source.analyze` accepts a root exactly if it is a
module or a submodule with its mandatory substatements, every date in the header is a date, and no
statement anywhere in the tree is unknown.
-/

namespace YangSchema

inductive SourceKind where
  | module
  | submodule
deriving DecidableEq

def SourceKind.text : SourceKind → String
  | .module => "module"
  | .submodule => "submodule"

/-- Name and latest revision of a source. -/
structure SourceKey where
  name : String
  revision : Option Revision := none
deriving DecidableEq

namespace SourceKey

/-- By name, then by revision, the undated source first. -/
instance : Ord SourceKey := ⟨compareLex (compareOn name) (compareOn revision)⟩

instance : Std.TransOrd SourceKey :=
  inferInstanceAs (Std.TransCmp (compareLex (compareOn name) (compareOn revision)))

instance : Std.LawfulEqOrd SourceKey where
  eq_of_compare {a b} h := by
    obtain ⟨hn, hr⟩ := compareLex_eq_eq.1 h
    have hn : a.name = b.name := Std.LawfulEqOrd.eq_of_compare hn
    have hr : a.revision = b.revision := Std.LawfulEqOrd.eq_of_compare hr
    cases a; cases b; simp_all

/-- The name, and the revision after an `@`. -/
def render (k : SourceKey) : String :=
  match k.revision with
  | some r => k.name ++ "@" ++ r.text
  | none => k.name

end SourceKey

/-- An import: a module, the prefix it is bound to, and the revision that is asked for. -/
structure Import where
  name : String
  binding : String
  revision : Option Revision
  location : Location := .unknown
deriving DecidableEq

/-- An include of a submodule. -/
structure Include where
  name : String
  revision : Option Revision
  location : Location := .unknown
deriving DecidableEq

/-- The module that a submodule belongs to, and the prefix the submodule uses for it. -/
structure Parent where
  name : String
  binding : String
deriving DecidableEq

/-- What a root statement says to those who link it. -/
structure Source where
  /-- What the source is called in traces. -/
  label : String
  kind : SourceKind
  name : String
  /-- Modules only. -/
  namespaceUri : Option String
  /-- Submodules only. -/
  parent : Option Parent
  /-- For a submodule, the prefix it uses for its parent. -/
  ownPrefix : String
  /-- The latest of the stated revisions. -/
  revision : Option Revision
  header : Header
  imports : List Import
  includes : List Include
  /-- The statement that was read. -/
  root : Statement

namespace Source

def key (s : Source) : SourceKey := ⟨s.name, s.revision⟩

/-- The name of the module that the source contributes to: its own, or that of its parent. -/
def ownerName (s : Source) : String := (s.parent.map Parent.name).getD s.name

def isSubmodule (s : Source) : Bool := s.kind == .submodule

/-! ## Reading the header -/

/-- The first substatement with the given keyword; it must be there and have an argument. -/
def requireChild (label : String) (root : Statement) (kind : SourceKind) (name : String)
    (k : Keyword) : Except Fault (Statement × String) :=
  match root.first? k with
  | none => .error ((Fault.malformed (.missingSubstatement kind.text name k.text)).locate
      (root.trace label))
  | some s => do
    let argument ← located (s.trace label) s.requireArgument
    return (s, argument)

def readRevision (s : Statement) : Except Fault Revision := do
  Revision.parse (← s.requireArgument)

/-- The revision that an import or include asks for. -/
def readRevisionDate (s : Statement) : Except Fault (Option Revision) :=
  (s.first? (.word .revisionDate)).mapM readRevision

def readImport (s : Statement) : Except Fault Import := do
  let name ← s.requireArgument
  let some binding := s.argumentOf (.word .prefixWord)
    | throw (.malformed (.importWithoutPrefix name))
  return { name, binding, revision := ← readRevisionDate s, location := s.location }

def readInclude (s : Statement) : Except Fault Include := do
  return { name := ← s.requireArgument, revision := ← readRevisionDate s, location := s.location }

/-- The later of the two revisions. -/
def later (latest : Option Revision) (r : Revision) : Option Revision :=
  if compare latest (some r) == .lt then some r else latest

/-- Namespace, parent and prefix: what a module and a submodule state differently. -/
def readAllegiance (label : String) (root : Statement) (kind : SourceKind) (name : String) :
    Except Fault (Option String × Option Parent × String) :=
  match kind with
  | .module => do
    let (_, uri) ← requireChild label root kind name (.word .namespaceWord)
    let (_, binding) ← requireChild label root kind name (.word .prefixWord)
    return (some uri, none, binding)
  | .submodule => do
    let (belongs, parent) ← requireChild label root kind name (.word .belongsTo)
    let some binding := belongs.argumentOf (.word .prefixWord)
      | throw ((Fault.malformed .parentWithoutPrefix).locate (belongs.trace label))
    return (none, some ⟨parent, binding⟩, binding)

def readHeader (root : Statement) : Header where
  yangVersion := (root.argumentOf (.word .yangVersion)).getD "1"
  organization := root.argumentOf (.word .organization)
  contact := root.argumentOf (.word .contact)
  description := root.argumentOf (.word .description)
  reference := root.argumentOf (.word .reference)

/-- Refuses a statement that is neither a word of the language nor an extension. -/
def checkKnown (label : String) (s : Statement) : Except Fault Unit :=
  match s.keyword with
  | .other text => .error ((Fault.malformed (.unknownStatement text)).locate (s.trace label))
  | _ => .ok ()

/-- Reads what linking needs from the root statement of the source called `label`. -/
def analyze (label : String) (root : Statement) : Except Fault Source := do
  let kind ← match root.keyword with
    | .word .moduleWord => pure SourceKind.module
    | .word .submodule => pure SourceKind.submodule
    | k => throw ((Fault.malformed (.notASource k.text)).locate (root.trace label))
  let name ← located (root.trace label) root.requireArgument
  root.walk (checkKnown label)
  let (namespaceUri, parent, ownPrefix) ← readAllegiance label root kind name
  let revisions ← (root.all (.word .revision)).mapM fun s =>
    located (s.trace label) (readRevision s)
  let imports ← (root.all (.word .importWord)).mapM fun s =>
    located (s.trace label) (readImport s)
  let includes ← (root.all (.word .includeWord)).mapM fun s =>
    located (s.trace label) (readInclude s)
  return {
    label, kind, name, namespaceUri, parent, ownPrefix
    revision := revisions.foldl later none
    header := readHeader root
    imports, includes, root }

end Source

end YangSchema
