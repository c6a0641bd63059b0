import YangSchema.Text.Split

/-!
# Statement keywords

A keyword is one of the words of the language, an extension `prefix:name`, or some other text, which
is then not a statement at all.  `Keyword.parse` decides by the text alone, and `Keyword.text` gives
the text back: no two texts have the same keyword (`Keyword.text_parse`).
-/

namespace YangSchema

/-- The words of the language. -/
inductive Word where
  | action
  | anydata
  | anyxml
  | argument
  | augment
  | base
  | belongsTo
  | bit
  | caseWord
  | choice
  | config
  | contact
  | container
  | defaultWord
  | description
  | deviate
  | deviation
  | enumWord
  | errorAppTag
  | errorMessage
  | extensionWord
  | feature
  | fractionDigits
  | grouping
  | identity
  | ifFeature
  | importWord
  | includeWord
  | input
  | key
  | leaf
  | leafList
  | length
  | list
  | mandatory
  | maxElements
  | minElements
  | modifier
  | moduleWord
  | must
  | namespaceWord
  | notification
  | orderedBy
  | organization
  | output
  | path
  | pattern
  | position
  | prefixWord
  | presence
  | range
  | reference
  | refine
  | requireInstance
  | revision
  | revisionDate
  | rpc
  | status
  | submodule
  | type
  | typedef
  | unique
  | units
  | uses
  | value
  | when
  | yangVersion
  | yinElement
deriving DecidableEq

namespace Word

/-- All words, in the order of their texts. -/
def all : List Word :=
  [.action, .anydata, .anyxml, .argument, .augment, .base, .belongsTo, .bit, .caseWord, .choice,
   .config, .contact, .container, .defaultWord, .description, .deviate, .deviation, .enumWord,
   .errorAppTag, .errorMessage, .extensionWord, .feature, .fractionDigits, .grouping, .identity,
   .ifFeature, .importWord, .includeWord, .input, .key, .leaf, .leafList, .length, .list,
   .mandatory, .maxElements, .minElements, .modifier, .moduleWord, .must, .namespaceWord,
   .notification, .orderedBy, .organization, .output, .path, .pattern, .position, .prefixWord,
   .presence, .range, .reference, .refine, .requireInstance, .revision, .revisionDate, .rpc,
   .status, .submodule, .type, .typedef, .unique, .units, .uses, .value, .when, .yangVersion,
   .yinElement]

/-- The word as it is written. -/
def text : Word → String
  | action => "action"
  | anydata => "anydata"
  | anyxml => "anyxml"
  | argument => "argument"
  | augment => "augment"
  | base => "base"
  | belongsTo => "belongs-to"
  | bit => "bit"
  | caseWord => "case"
  | choice => "choice"
  | config => "config"
  | contact => "contact"
  | container => "container"
  | defaultWord => "default"
  | description => "description"
  | deviate => "deviate"
  | deviation => "deviation"
  | enumWord => "enum"
  | errorAppTag => "error-app-tag"
  | errorMessage => "error-message"
  | extensionWord => "extension"
  | feature => "feature"
  | fractionDigits => "fraction-digits"
  | grouping => "grouping"
  | identity => "identity"
  | ifFeature => "if-feature"
  | importWord => "import"
  | includeWord => "include"
  | input => "input"
  | key => "key"
  | leaf => "leaf"
  | leafList => "leaf-list"
  | length => "length"
  | list => "list"
  | mandatory => "mandatory"
  | maxElements => "max-elements"
  | minElements => "min-elements"
  | modifier => "modifier"
  | moduleWord => "module"
  | must => "must"
  | namespaceWord => "namespace"
  | notification => "notification"
  | orderedBy => "ordered-by"
  | organization => "organization"
  | output => "output"
  | path => "path"
  | pattern => "pattern"
  | position => "position"
  | prefixWord => "prefix"
  | presence => "presence"
  | range => "range"
  | reference => "reference"
  | refine => "refine"
  | requireInstance => "require-instance"
  | revision => "revision"
  | revisionDate => "revision-date"
  | rpc => "rpc"
  | status => "status"
  | submodule => "submodule"
  | type => "type"
  | typedef => "typedef"
  | unique => "unique"
  | units => "units"
  | uses => "uses"
  | value => "value"
  | when => "when"
  | yangVersion => "yang-version"
  | yinElement => "yin-element"

theorem mem_all (w : Word) : w ∈ all := by cases w <;> decide

end Word

inductive Keyword where
  | word (w : Word)
  /-- `qualifier:name`, an instance of an extension. -/
  | extension (qualifier name : String)
  /-- A text without a colon that is no word of the language. -/
  | other (text : String)
deriving DecidableEq

namespace Keyword

/-- The word that is written `s`. -/
def wordOf? (s : String) : Option Word := Word.all.find? (·.text == s)

def parse (s : String) : Keyword :=
  match wordOf? s with
  | some w => .word w
  | none => match Text.cut ':' s.toList with
    | some (qualifier, name) => .extension (String.ofList qualifier) (String.ofList name)
    | none => .other s

/-- The keyword as it is written. -/
def text : Keyword → String
  | word w => w.text
  | extension qualifier name => qualifier ++ ":" ++ name
  | other s => s

/-! ## Lemmas -/

theorem text_of_wordOf? {s : String} {w : Word} (h : wordOf? s = some w) : w.text = s := by
  simpa using List.find?_some h

/-- Classification loses nothing. -/
theorem text_parse (s : String) : (parse s).text = s := by
  unfold parse
  split
  · rename_i w hw
    exact text_of_wordOf? hw
  · split
    · rename_i qualifier name hcut
      have := (Text.eq_append_of_cut hcut).1
      apply String.toList_injective
      simp [text, this]
    · rfl

end Keyword

end YangSchema
