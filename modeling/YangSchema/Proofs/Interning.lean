import Mathlib.Data.Finset.Card
import Mathlib.Data.Finset.Dedup
import Mathlib.Data.List.Forall2
import YangSchema.Interner

/-!
# Interning

A series of calls on one interner (`Interner.run`) keeps its two tables in step (`Interner.Sound`): no
text is there twice, and every identity has the namespace and the revision that it is kept under, and
the handle of that namespace.  Texts are only added, so a handle stands for its text for good, whichever
kind of call it was given out by.  Two handles of a series are the same exactly if their texts are
(`Interner.run_canonical`).
-/

namespace YangSchema.Interner

/-- A call on an interner. -/
inductive Call where
  | intern (text : String)
  | module (uri : String) (revision : Option Revision)
  | qname (owner : ModuleIdentity) (name : String)
deriving DecidableEq

/-- The text that is taken in: a plain one, a namespace or a local name. -/
def Call.text : Call → String
  | intern text => text
  | module uri _ => uri
  | qname _ name => name

inductive Answer where
  | text (h : Handle)
  | module (m : InternedModule)
  | name (q : InternedName)
deriving DecidableEq

/-- The handle of the text that was taken in. -/
def Answer.handle : Answer → Handle
  | text h => h
  | module m => m.namespaceHandle
  | name q => q.localHandle

def call (i : Interner) : Call → Answer × Interner
  | .intern text => (i.intern text).map .text id
  | .module uri revision => (i.module uri revision).map .module id
  | .qname owner name => (i.qname owner name).map .name id

/-- The answers to a series of calls, and the interner after them. -/
def run (i : Interner) : List Call → List Answer × Interner
  | [] => ([], i)
  | c :: calls =>
    let (a, i) := i.call c
    let (answers, i) := i.run calls
    (a :: answers, i)

/-- The answer is of the kind that the call asks for, and names what the call names. -/
inductive Answers : Call → Answer → Prop
  | intern (text : String) (h : Handle) : Answers (.intern text) (.text h)
  | module (uri : String) (revision : Option Revision) (h : Handle) :
      Answers (.module uri revision) (.module ⟨⟨uri, revision⟩, h⟩)
  | qname (owner : ModuleIdentity) (name : String) (h : Handle) :
      Answers (.qname owner name) (.name ⟨⟨owner, name⟩, h⟩)

/-- The two tables are in step. -/
structure Sound (i : Interner) : Prop where
  nodup : i.texts.Nodup
  /-- Every identity is kept under what it says, with the handle of its namespace. -/
  modules : ∀ k m, (k, m) ∈ i.modules →
    m.identity = ⟨k.1, k.2⟩ ∧ i.text? m.namespaceHandle = some k.1

variable {i j : Interner} {s t : String} {h h' : Handle} {c : Call} {a b : Answer}

/-! ## Texts and handles -/

theorem text?_mono (hij : i.texts <+: j.texts) (hs : i.text? h = some s) : j.text? h = some s := by
  obtain ⟨more, hmore⟩ := hij
  obtain ⟨hlt, -⟩ := List.getElem?_eq_some_iff.1 hs
  rw [text?, ← hmore, List.getElem?_append_left hlt]
  exact hs

theorem Sound.text?_inj (hi : i.Sound) (hs : i.text? h = some s) (hs' : i.text? h' = some s) :
    h = h' := by
  obtain ⟨hlt, -⟩ := List.getElem?_eq_some_iff.1 hs
  have hnumber : h.number = h'.number := (List.getElem?_inj hlt hi.nodup).1 (hs.trans hs'.symm)
  cases h
  cases h'
  simp_all

/-- In a sound interner, handles are the same exactly if their texts are. -/
theorem Sound.handle_eq_iff (hi : i.Sound) (hs : i.text? h = some s) (ht : i.text? h' = some t) :
    h = h' ↔ s = t := by
  constructor
  · rintro rfl
    exact Option.some.inj (hs.symm.trans ht)
  · rintro rfl
    exact hi.text?_inj hs ht

/-! ## Single calls -/

theorem texts_intern : (i.intern s).2.texts = if s ∈ i.texts then i.texts else i.texts ++ [s] := by
  unfold intern
  cases hs : i.texts.idxOf? s with
  | none => simp [List.idxOf?_eq_none_iff.1 hs]
  | some n =>
    have hmem : s ∈ i.texts := List.isSome_idxOf?.1 (by simp [hs])
    simp [hmem]

theorem prefix_intern : i.texts <+: (i.intern s).2.texts := by
  rw [texts_intern]
  split
  · exact List.prefix_rfl
  · exact List.prefix_append _ _

theorem mem_texts_intern : t ∈ (i.intern s).2.texts ↔ t ∈ i.texts ∨ t = s := by
  rw [texts_intern]
  split
  · next hs =>
    constructor
    · exact .inl
    · rintro (ht | rfl)
      · exact ht
      · exact hs
  · simp

theorem Sound.intern (hi : i.Sound) (s : String) : (i.intern s).2.Sound := by
  constructor
  · rw [texts_intern]
    split
    · exact hi.nodup
    · next hs => simpa [List.nodup_append] using ⟨hi.nodup, fun t ht hts => hs (hts ▸ ht)⟩
  · intro k m hm
    rw [modules_intern] at hm
    obtain ⟨hidentity, hhandle⟩ := hi.modules k m hm
    exact ⟨hidentity, text?_mono prefix_intern hhandle⟩

/-- What a call does: it answers, the handle of the answer stands for the text of the call, and this
text is all that is added. -/
structure Serves (i : Interner) (c : Call) (a : Answer) (j : Interner) : Prop where
  sound : j.Sound
  answers : Answers c a
  handle : j.text? a.handle = some c.text
  keeps : i.texts <+: j.texts
  mem_texts : ∀ t, t ∈ j.texts ↔ t ∈ i.texts ∨ t = c.text

/-- An answer with the handle of the text serves a call that only takes the text in. -/
theorem serves_intern (hi : i.Sound) (ha : Answers c a)
    (hhandle : (i.intern c.text).2.text? a.handle = some c.text) :
    Serves i c a (i.intern c.text).2 where
  sound := hi.intern c.text
  answers := ha
  handle := hhandle
  keeps := prefix_intern
  mem_texts _ := mem_texts_intern

theorem serves_module (hi : i.Sound) (uri : String) (revision : Option Revision) :
    Serves i (.module uri revision) (.module (i.module uri revision).1) (i.module uri revision).2 := by
  have hinterned := hi.intern uri
  unfold Interner.module
  dsimp only
  split
  · -- made before: what is kept under the namespace and the revision is what they say
    next m hm =>
    rw [modules_intern, List.lookup_eq_some_iff] at hm
    obtain ⟨before, after, hsplit, -⟩ := hm
    obtain ⟨hidentity, hhandle⟩ := hinterned.modules (uri, revision) m (by simp [hsplit])
    obtain ⟨identity, h⟩ := m
    obtain rfl : identity = ⟨uri, revision⟩ := hidentity
    exact serves_intern hi (.module uri revision h) hhandle
  · -- made now, with the handle that the namespace has just got
    refine ⟨⟨hinterned.nodup, ?_⟩, .module uri revision _, text?_intern i uri, prefix_intern,
      fun _ => mem_texts_intern⟩
    intro k m hm
    rcases List.mem_append.1 hm with hm | hm
    · exact hinterned.modules k m hm
    · obtain ⟨rfl, rfl⟩ := Prod.mk.inj (List.mem_singleton.1 hm)
      exact ⟨rfl, text?_intern i uri⟩

theorem serves_call (hi : i.Sound) : Serves i c (i.call c).1 (i.call c).2 := by
  cases c with
  | intern text => exact serves_intern hi (.intern text _) (text?_intern i text)
  | module uri revision => exact serves_module hi uri revision
  | qname owner name => exact serves_intern hi (.qname owner name _) (text?_intern i name)

/-! ## Series of calls -/

/-- What a series of calls does: every call is answered with a handle that stands for its text from
then on, and the texts of the calls are all that is added. -/
structure ServesAll (i : Interner) (calls : List Call) (answers : List Answer) (j : Interner) :
    Prop where
  sound : j.Sound
  answered : List.Forall₂ (fun c a => Answers c a ∧ j.text? a.handle = some c.text) calls answers
  keeps : i.texts <+: j.texts
  mem_texts : ∀ t, t ∈ j.texts ↔ t ∈ i.texts ∨ t ∈ calls.map Call.text

theorem servesAll_run (hi : i.Sound) (calls : List Call) :
    ServesAll i calls (i.run calls).1 (i.run calls).2 := by
  induction calls generalizing i with
  | nil => exact ⟨hi, .nil, List.prefix_rfl, by simp [run]⟩
  | cons c calls ih =>
    have hcall := serves_call (c := c) hi
    have hrest := ih hcall.sound
    refine ⟨hrest.sound, .cons ⟨hcall.answers, ?_⟩ hrest.answered, hcall.keeps.trans hrest.keeps, ?_⟩
    · -- the later calls only add texts, so the handle of the first one stands for its text still
      exact text?_mono hrest.keeps hcall.handle
    · intro t
      show t ∈ ((i.call c).2.run calls).2.texts ↔ _
      rw [hrest.mem_texts, hcall.mem_texts, List.map_cons, List.mem_cons, or_assoc]

theorem sound_empty : ({} : Interner).Sound := ⟨List.nodup_nil, by simp⟩

/-- The answer is determined by the call and the handle. -/
theorem Answers.eq (ha : Answers c a) (hb : Answers c b) (h : a.handle = b.handle) : a = b := by
  cases ha <;> cases hb <;> cases h <;> rfl

/-- Whatever series of calls an interner serves: every call has an answer, and the answer is about what
the call names, so that the identity of a module is the namespace and the revision asked for; handles
are the same exactly if they were given out for the same text, in whichever role, and a call made again
has the same answer; and the interner has as many texts as the calls have different ones. -/
theorem run_canonical (calls : List Call) :
    List.Forall₂ Answers calls (run {} calls).1 ∧
    (∀ p ∈ calls.zip (run {} calls).1, ∀ q ∈ calls.zip (run {} calls).1,
      (p.2.handle = q.2.handle ↔ p.1.text = q.1.text) ∧ (p.1 = q.1 → p.2 = q.2)) ∧
    (∀ p ∈ calls.zip (run {} calls).1, (run {} calls).2.text? p.2.handle = some p.1.text) ∧
    (run {} calls).2.size = (calls.map Call.text).toFinset.card := by
  have hserves := servesAll_run sound_empty calls
  have hzip : ∀ p ∈ calls.zip (run {} calls).1,
      Answers p.1 p.2 ∧ (run {} calls).2.text? p.2.handle = some p.1.text :=
    fun p hp => (List.forall₂_iff_zip.1 hserves.answered).2 hp
  refine ⟨hserves.answered.imp fun _ _ h => h.1, ?_, fun p hp => (hzip p hp).2, ?_⟩
  · intro p hp q hq
    have hhandle := hserves.sound.handle_eq_iff (hzip p hp).2 (hzip q hq).2
    refine ⟨hhandle, fun hcall => ?_⟩
    have hq' : Answers p.1 q.2 := hcall ▸ (hzip q hq).1
    exact (hzip p hp).1.eq hq' (hhandle.2 (congrArg Call.text hcall))
  · have htexts : (run {} calls).2.texts.toFinset = (calls.map Call.text).toFinset := by
      ext t
      simpa using hserves.mem_texts t
    rw [← htexts, List.toFinset_card_of_nodup hserves.sound.nodup]
    rfl

/-- One text as a namespace and as a local name, another by itself, and a module in two revisions. -/
def mixedCalls : List Call :=
  [.module "urn:a" none, .qname ⟨"urn:b", none⟩ "urn:a", .intern "leaf",
    .module "urn:a" (some ⟨"2023-11-20", by decide⟩), .module "urn:a" none]

def namespaceServed : Call × Answer :=
  (.module "urn:a" none, .module ⟨⟨"urn:a", none⟩, ⟨0⟩⟩)

def localNameServed : Call × Answer :=
  (.qname ⟨"urn:b", none⟩ "urn:a", .name ⟨⟨⟨"urn:b", none⟩, "urn:a"⟩, ⟨0⟩⟩)

theorem run_canonical_mixedCalls :
    namespaceServed ∈ mixedCalls.zip (run {} mixedCalls).1 ∧
    localNameServed ∈ mixedCalls.zip (run {} mixedCalls).1 ∧
    namespaceServed.2.handle = localNameServed.2.handle ∧ (run {} mixedCalls).2.size = 2 := by
  have hnamespace : namespaceServed ∈ mixedCalls.zip (run {} mixedCalls).1 := by decide +kernel
  have hlocalName : localNameServed ∈ mixedCalls.zip (run {} mixedCalls).1 := by decide +kernel
  obtain ⟨-, hcanonical, -, hsize⟩ := run_canonical mixedCalls
  refine ⟨hnamespace, hlocalName, ?_, hsize.trans (by decide +kernel)⟩
  exact (hcanonical _ hnamespace _ hlocalName).1.2 rfl

end YangSchema.Interner
