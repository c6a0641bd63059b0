import YangSchema.QName

/-!
# Interned names

An interner gives out one handle for each text, so that equal texts can be told by their handles
alone.  Namespaces, local names and plain texts share the same handles, and nothing is ever
forgotten: a handle stands for the same text for good.  The identity of a module is made once for
each namespace and revision, and given out again whenever it is asked for.
-/

namespace YangSchema

/-- The number under which a text was first seen. -/
structure Handle where
  number : Nat
deriving DecidableEq

/-- A module identity whose namespace has a handle. -/
structure InternedModule where
  identity : ModuleIdentity
  namespaceHandle : Handle
deriving DecidableEq

/-- A qualified name whose local name has a handle. -/
structure InternedName where
  name : QName
  localHandle : Handle
deriving DecidableEq

/-- What has been given out so far. -/
structure Interner where
  /-- The texts, each once, in the order in which they were first seen. -/
  texts : List String := []
  /-- The identity that was made for each namespace and revision. -/
  modules : List ((String × Option Revision) × InternedModule) := []

namespace Interner

def size (i : Interner) : Nat := i.texts.length

/-- The text that a handle stands for. -/
def text? (i : Interner) (h : Handle) : Option String := i.texts[h.number]?

/-- The handle of `s`; a text not seen before gets the next one. -/
def intern (i : Interner) (s : String) : Handle × Interner :=
  match i.texts.idxOf? s with
  | some n => (⟨n⟩, i)
  | none => (⟨i.size⟩, { i with texts := i.texts ++ [s] })

/-- The identity of a module: the one made before for this namespace and revision, or a new one with
the namespace interned. -/
def module (i : Interner) (uri : String) (revision : Option Revision) :
    InternedModule × Interner :=
  let (h, i) := i.intern uri
  match i.modules.lookup (uri, revision) with
  | some m => (m, i)
  | none =>
    let m : InternedModule := ⟨⟨uri, revision⟩, h⟩
    (m, { i with modules := i.modules ++ [((uri, revision), m)] })

/-- A name in the module `m`, its local name interned. -/
def qname (i : Interner) (m : ModuleIdentity) (name : String) : InternedName × Interner :=
  let (h, i) := i.intern name
  (⟨⟨m, name⟩, h⟩, i)

/-! ## Lemmas -/

theorem text?_intern (i : Interner) (s : String) :
    (i.intern s).2.text? (i.intern s).1 = some s := by
  unfold intern
  split
  · rename_i n hn
    obtain ⟨hlt, heq, -⟩ := List.findIdx?_eq_some_iff_getElem.1 hn
    simp_all [text?]
  · simp [text?, size]

@[simp] theorem modules_intern (i : Interner) (s : String) : (i.intern s).2.modules = i.modules := by
  unfold intern
  split <;> rfl

end Interner

end YangSchema
