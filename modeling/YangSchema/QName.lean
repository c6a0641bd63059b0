import YangSchema.Revision

/-!
# Qualified names

A module is identified by its namespace and, if it has one, its revision.  A qualified name is a
local name together with the identity of the module that owns it.

Identities are ordered by namespace, then by revision, the undated one first; names are ordered by
owner, then by local name.  Both orders are linear (`Std.TransOrd`, `Std.LawfulEqOrd`).
-/

namespace YangSchema

/-- Which module: a namespace in one of its revisions. -/
structure ModuleIdentity where
  namespaceUri : String
  revision : Option Revision := none
deriving DecidableEq

namespace ModuleIdentity

instance : Inhabited ModuleIdentity := ⟨⟨"", none⟩⟩

/-- The namespace decides first; an undated module comes before the dated ones. -/
instance : Ord ModuleIdentity := ⟨compareLex (compareOn namespaceUri) (compareOn revision)⟩

instance : Std.TransOrd ModuleIdentity :=
  inferInstanceAs (Std.TransCmp (compareLex (compareOn namespaceUri) (compareOn revision)))

instance : Std.LawfulEqOrd ModuleIdentity where
  eq_of_compare {a b} h := by
    obtain ⟨hn, hr⟩ := compareLex_eq_eq.1 h
    have hn : a.namespaceUri = b.namespaceUri := Std.LawfulEqOrd.eq_of_compare hn
    have hr : a.revision = b.revision := Std.LawfulEqOrd.eq_of_compare hr
    cases a; cases b; simp_all

/-- The namespace, with the revision as a query when there is one. -/
def render (m : ModuleIdentity) : String :=
  match m.revision with
  | some r => m.namespaceUri ++ "?revision=" ++ r.text
  | none => m.namespaceUri

end ModuleIdentity

/-- A local name and the module that owns it. -/
structure QName where
  owner : ModuleIdentity
  localName : String
deriving DecidableEq, Inhabited

namespace QName

instance : Ord QName := ⟨compareLex (compareOn owner) (compareOn localName)⟩

instance : Std.TransOrd QName :=
  inferInstanceAs (Std.TransCmp (compareLex (compareOn owner) (compareOn localName)))

instance : Std.LawfulEqOrd QName where
  eq_of_compare {a b} h := by
    obtain ⟨ho, hl⟩ := compareLex_eq_eq.1 h
    have ho : a.owner = b.owner := Std.LawfulEqOrd.eq_of_compare ho
    have hl : a.localName = b.localName := Std.LawfulEqOrd.eq_of_compare hl
    cases a; cases b; simp_all

/-- The same local name in another module. -/
def bindTo (m : ModuleIdentity) (q : QName) : QName := { q with owner := m }

/-- Equal up to the revision of the owner. -/
def sameName (a b : QName) : Bool :=
  a.owner.namespaceUri == b.owner.namespaceUri && a.localName == b.localName

/-- The owner in parentheses, then the local name. -/
def render (q : QName) : String := "(" ++ q.owner.render ++ ")" ++ q.localName

@[simp] theorem bindTo_owner (m : ModuleIdentity) (q : QName) : (q.bindTo m).owner = m := rfl
@[simp] theorem bindTo_localName (m : ModuleIdentity) (q : QName) :
    (q.bindTo m).localName = q.localName := rfl
@[simp] theorem bindTo_self (q : QName) : q.bindTo q.owner = q := rfl
@[simp] theorem bindTo_bindTo (m n : ModuleIdentity) (q : QName) :
    (q.bindTo m).bindTo n = q.bindTo n := rfl

end QName

end YangSchema
