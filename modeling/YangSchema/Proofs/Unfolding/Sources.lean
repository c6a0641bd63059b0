import YangSchema.Proofs.Submodules

/-!
# What sources yield

The meaning of `uses` by plain replacement, read off the statements of the sources.  The text of a module
is made of the bodies of its source and of the submodules that this reaches through includes
(`Registry.HasText`).  A body yields the nodes that it declares, each with what its own body yields below
it, and for each uses what the body of its grouping yields, with every step bound to the module at hand.
A node under a choice that is no case stands in a case of its name (`Yields`).
-/

namespace YangSchema

/-! ## Bodies in sources -/

/-- The body of a statement, with the bindings of its source and the statements around it, the
innermost first. -/
structure Place where
  prefixes : Prefixes
  body : Statement
  around : List Statement := []

namespace Place

/-- The body of a substatement. -/
def inside (P : Place) (c : Statement) : Place := { P with body := c, around := P.body :: P.around }

def isChoice (P : Place) : Bool := P.body.keyword == .word .choice

/-- The name of the grouping whose body it is. -/
def groupingName? (P : Place) : Option QName := P.body.argument.map P.prefixes.ownName

/-- The bodies of the groupings that are defined in the body. -/
def groupings (P : Place) : List Place := (P.body.all (.word .grouping)).map P.inside

/-- The groupings that are defined in the given bodies, each of which stands in the next one; the last
of a body comes first. -/
def scopeOf (b : Prefixes) : List Statement → List Place
  | [] => []
  | s :: around => (groupings ⟨b, s, around⟩).reverse ++ scopeOf b around

/-- The groupings that can be seen from the statements of the body, the nearest first. -/
def visible (P : Place) : List Place := scopeOf P.prefixes (P.body :: P.around)

end Place

/-- All that contributes to a module. -/
structure ModuleText where
  identity : ModuleIdentity
  /-- The body of the module, then those of its submodules. -/
  parts : List Place

/-- The groupings at the top of the module. -/
def ModuleText.groupings (T : ModuleText) : List Place := T.parts.flatMap Place.groupings

/-- The body of a source that contributes to the module `own`. -/
def Registry.placeOf (r : Registry) (own : ModuleIdentity) (s : Source) : Except Fault Place := do
  let prefixes ← Prefixes.ofSource r s
  return { prefixes := { prefixes with own }, body := s.root }

/-- `T` is the text of the module that the source is: its own body, then those of the submodules that it
reaches through includes, in the order in which they are opened.  A submodule may belong to several
revisions of its parent; what it says is bound to the one at hand. -/
structure Registry.HasText (r : Registry) (s : Source) (T : ModuleText) : Prop where
  identity : r.effectiveIdentity s = .ok T.identity
  parts : ∃ subs, r.Submodules s subs ∧ r.Opens [s] [] subs ∧
    List.Forall₂ (fun t P => r.placeOf T.identity t = .ok P) (s :: subs) T.parts

theorem Registry.HasText.unique (r : Registry) : Relator.RightUnique r.HasText := by
  rintro s ⟨own, parts⟩ ⟨own', parts'⟩ ⟨hown, subs, -, hopens, hparts⟩
    ⟨hown', subs', -, hopens', hparts'⟩
  obtain rfl : own = own' := Except.ok.inj (hown.symm.trans hown')
  obtain rfl := hopens.unique hopens'
  have hplace : Relator.RightUnique fun t P => r.placeOf own t = .ok P := fun _ _ _ hP hQ =>
    Except.ok.inj (hP.symm.trans hQ)
  exact congrArg _ (hplace.forall₂ hparts hparts')

/-- The grouping that a uses in the body means: the nearest one that can be seen, else the first one at
the top of the module that the name belongs to. -/
def findGrouping (texts : List ModuleText) (P : Place) (q : QName) : Option Place :=
  (P.visible.find? (·.groupingName? == some q)).or
    ((texts.find? (·.identity == q.owner)).bind fun T =>
      T.groupings.find? (·.groupingName? == some q))

/-! ## What bodies yield -/

/-- The body yields a node with the keyword `k` at the end of the path; the first node on the way has
the keyword `top`.  Unless `cased`, this is so before nodes under a choice are put in cases. -/
inductive Yields (texts : List ModuleText) :
    (cased : Bool) → Place → List QName → String → String → Prop
  | node {P : Place} {c : Statement} {kind : NodeKind} {name : String} (hc : c ∈ P.body.children)
    (hkind : c.nodeKind? P.prefixes = some (.ok kind)) (hname : c.nodeName = .ok name) :
    Yields texts false P [P.prefixes.ownName name] kind.keyword kind.keyword
  | inner {P : Place} {c : Statement} {kind : NodeKind} {name : String} {p : List QName}
    {top k : String} (hc : c ∈ P.body.children)
    (hkind : c.nodeKind? P.prefixes = some (.ok kind)) (hname : c.nodeName = .ok name)
    (h : Yields texts true (P.inside c) p top k) :
    Yields texts false P (P.prefixes.ownName name :: p) kind.keyword k
  | uses {P G : Place} {c : Statement} {text : String} {q : QName} {p : List QName} {top k : String}
    (hc : c ∈ P.body.children) (hkeyword : c.keyword = .word .uses) (htext : c.argument = some text)
    (hq : P.prefixes.qname text = .ok q) (hG : findGrouping texts P q = some G)
    (h : Yields texts true G p top k) :
    Yields texts false P (p.map (QName.bindTo P.prefixes.own)) top k
  | direct {P : Place} {p : List QName} {top k : String} (h : Yields texts false P p top k)
    (hw : ¬ (P.isChoice = true ∧ top ≠ "case")) : Yields texts true P p top k
  | wrapper {P : Place} {q : QName} {top k : String} (h : Yields texts false P [q] top k)
    (hw : P.isChoice = true ∧ top ≠ "case") : Yields texts true P [q] "case" "case"
  | wrapped {P : Place} {q : QName} {p : List QName} {top k : String}
    (h : Yields texts false P (q :: p) top k) (hw : P.isChoice = true ∧ top ≠ "case") :
    Yields texts true P (q :: q :: p) "case" k

/-- The module holds, by its text, a node with the keyword `k` at the path. -/
def ModuleText.Holds (texts : List ModuleText) (T : ModuleText) (path : SchemaPath) (k : String) :
    Prop :=
  path.absolute = true ∧ ∃ P ∈ T.parts, ∃ top, Yields texts true P path.steps top k

end YangSchema
