import Mathlib.Data.List.Forall2
import YangSchema.Draft.Copy
import YangSchema.Proofs.Draft.Moving

/-!
# Copies that look like their source

What a copy says beside its source: the same, but for the names that are bound to another module and the
marks that are set (`CopyStyle.ItemLike`).  Definitions are compared place by place: a place is the way
down to it, as a list of numbers (`Draft.itemAt?`).  A list of copies mirrors a list of definitions if at
every place below both there is nothing, or a definition and a copy of it, and no copy stands at two places
(`Draft.Mirrors`); it does so still where only the places of nodes change (`Mirrors.steady`), and lists of
copies may be joined (`Mirrors.append`) and put into a copy (`Mirrors.around`).
-/

namespace YangSchema

open Draft

/-! ## What changes on copying -/

namespace CopyStyle

variable {style : CopyStyle}

/-- The same local name, in the module that names are bound to if there is one. -/
structure RenamesTo (style : CopyStyle) (q q' : QName) : Prop where
  localName : q'.localName = q.localName
  owner : q'.owner = style.bindTo.getD q.owner

theorem renamesTo_name (style : CopyStyle) (q : QName) : style.RenamesTo q (style.name q) := by
  unfold name
  split
  · next m hm => exact ⟨rfl, by rw [hm]; rfl⟩
  · next hnone => exact ⟨rfl, by rw [hnone]; rfl⟩

/-- Every step is renamed. -/
structure RepathsTo (style : CopyStyle) (p p' : SchemaPath) : Prop where
  absolute : p'.absolute = p.absolute
  steps : List.Forall₂ style.RenamesTo p.steps p'.steps

theorem forall₂_renamesTo_map {g : QName → QName} (hg : ∀ q, style.RenamesTo q (g q)) (l : List QName) :
    List.Forall₂ style.RenamesTo l (l.map g) :=
  List.forall₂_map_right_iff.2 (List.forall₂_same.2 fun q _ => hg q)

theorem repathsTo_path (style : CopyStyle) (p : SchemaPath) : style.RepathsTo p (style.path p) := by
  have hname := style.renamesTo_name
  unfold name at hname
  unfold path
  cases h : style.bindTo with
  | none =>
    rw [h] at hname
    exact ⟨rfl, List.forall₂_same.2 fun q _ => hname q⟩
  | some m =>
    rw [h] at hname
    exact ⟨rfl, forall₂_renamesTo_map hname p.steps⟩

/-- The same kind; keys and default case are renamed. -/
inductive RekindsTo (style : CopyStyle) : NodeKind → NodeKind → Prop
  | list {keys keys' : List QName} (h : List.Forall₂ style.RenamesTo keys keys') :
    RekindsTo style (.list keys) (.list keys')
  | choice {q q' : Option QName} (h : Option.Rel style.RenamesTo q q') :
    RekindsTo style (.choice q) (.choice q')
  | nameless {k : NodeKind} (hlist : ∀ keys, k ≠ .list keys) (hchoice : ∀ q, k ≠ .choice q) :
    RekindsTo style k k

theorem rekindsTo_kind (style : CopyStyle) (k : NodeKind) : style.RekindsTo k (style.kind k) := by
  have hname := style.renamesTo_name
  unfold name at hname
  unfold kind
  cases h : style.bindTo with
  | none =>
    rw [h] at hname
    cases k with
    | list keys => exact .list (List.forall₂_same.2 fun q _ => hname q)
    | choice q =>
      cases q with
      | none => exact .choice .none
      | some q => exact .choice (.some (hname q))
    | _ => exact .nameless (fun _ h => by cases h) fun _ h => by cases h
  | some m =>
    rw [h] at hname
    cases k with
    | list keys => exact .list (forall₂_renamesTo_map hname keys)
    | choice q =>
      cases q with
      | none => exact .choice .none
      | some q => exact .choice (.some (hname q))
    | _ => exact .nameless (fun _ h => by cases h) fun _ h => by cases h

/-- `r'` says what `r`, the record of the node `o`, says; what stands below them is another matter. -/
structure NodeLike (style : CopyStyle) (o : NodeId) (r r' : NodeDraft) : Prop where
  origin : r'.origin = some o
  name : style.RenamesTo r.name r'.name
  kind : style.RekindsTo r.kind r'.kind
  docs : r'.facts.docs = r.facts.docs
  config : r'.config = r.config
  constraints : r'.constraints = r.constraints
  properties : r'.properties = r.properties
  typedefs : r'.facts.typedefs = r.facts.typedefs
  groupings : r'.groupings = r.groupings
  augmentations : r'.augmentations = r.augmentations
  byUses : r'.facts.byUses = (r.facts.byUses || style.byUses)
  augmenting : r'.facts.augmenting = (r.facts.augmenting || style.augmenting)
  unknown : r'.facts.unknown =
    r.facts.unknown.map fun u => { u with byUses := u.byUses || style.byUses }

structure UsesLike (style : CopyStyle) (r r' : UsesDraft) : Prop where
  grouping : r'.facts.grouping = r.facts.grouping
  refines : List.Forall₂ style.RepathsTo r.facts.refines r'.facts.refines
  byUses : r'.facts.byUses = (r.facts.byUses || style.byUses)
  augmenting : r'.facts.augmenting = (r.facts.augmenting || style.augmenting)

structure AugmentLike (style : CopyStyle) (o : AugmentId) (r r' : AugmentDraft) : Prop where
  origin : r'.origin = some o
  target : style.RepathsTo r.facts.target r'.facts.target
  home : r'.facts.home = style.bindTo.getD r.facts.home
  order : r'.facts.order = r.facts.order
  condition : r'.facts.condition = r.facts.condition
  docs : r'.facts.docs = r.facts.docs
  unknown : r'.facts.unknown = r.facts.unknown

/-- The definition `y` of `d` is a copy of the definition `x` of `d₀`, taken by itself. -/
inductive ItemLike (style : CopyStyle) (d₀ d : Draft) : Item → Item → Prop
  | node {o i : NodeId} (h : style.NodeLike o (d₀.node o) (d.node i)) :
    ItemLike style d₀ d (.site (.node o)) (.site (.node i))
  | uses {o u : UsesId} (h : style.UsesLike (d₀.usesOf o) (d.usesOf u)) :
    ItemLike style d₀ d (.uses o) (.uses u)
  | augment {o a : AugmentId} (h : style.AugmentLike o (d₀.augment o) (d.augment a)) :
    ItemLike style d₀ d (.site (.augment o)) (.site (.augment a))

theorem nodeLike_node (style : CopyStyle) (o : NodeId) (r : NodeDraft) :
    style.NodeLike o r (style.node o r) where
  origin := rfl
  name := style.renamesTo_name _
  kind := style.rekindsTo_kind _
  docs := rfl
  config := rfl
  constraints := rfl
  properties := rfl
  typedefs := rfl
  groupings := rfl
  augmentations := rfl
  byUses := rfl
  augmenting := rfl
  unknown := rfl

theorem usesLike_uses (style : CopyStyle) (r : UsesDraft) (l : List AugmentId) :
    style.UsesLike r (style.uses r l) where
  grouping := rfl
  refines := List.forall₂_map_right_iff.2 (List.forall₂_same.2 fun p _ => style.repathsTo_path p)
  byUses := rfl
  augmenting := rfl

theorem augmentLike_augment (style : CopyStyle) (o : AugmentId) (r : AugmentDraft) :
    style.AugmentLike o r (style.augment o r) where
  origin := rfl
  target := style.repathsTo_path _
  home := rfl
  order := rfl
  condition := rfl
  docs := rfl
  unknown := rfl

end CopyStyle

namespace Draft

variable {style : CopyStyle} {d₀ d d' : Draft} {x x' y : Item} {l l' m m' : List Item}
  {N N' : Item → Prop} {k : Nat} {p : List Nat}

/-! ## Places below a definition -/

/-- The definition at the end of a way down: of what a definition contains, it takes the one with the given
number, and so on. -/
def itemAt? (d : Draft) (x : Item) : List Nat → Option Item
  | [] => some x
  | k :: p => (d.contents x)[k]?.bind fun y => d.itemAt? y p

/-- The definition at the end of a way down that starts with the one of the given number in a list. -/
def itemIn? (d : Draft) (l : List Item) (k : Nat) (p : List Nat) : Option Item :=
  l[k]?.bind fun y => d.itemAt? y p

theorem itemAt?_cons (d : Draft) (x : Item) (k : Nat) (p : List Nat) :
    d.itemAt? x (k :: p) = d.itemIn? (d.contents x) k p := rfl

theorem itemIn?_append (d : Draft) (l m : List Item) (k : Nat) (p : List Nat) :
    d.itemIn? (l ++ m) k p = if k < l.length then d.itemIn? l k p else d.itemIn? m (k - l.length) p := by
  unfold itemIn?
  rw [List.getElem?_append]
  split <;> rfl

theorem itemIn?_singleton (d : Draft) (x : Item) (k : Nat) (p : List Nat) :
    d.itemIn? [x] k p = if k = 0 then d.itemAt? x p else none := by
  cases k <;> rfl

/-- Ways lead to the same places as long as they lead through definitions that contain the same. -/
theorem itemAt?_congr (h : ∀ q y, d.itemAt? x q = some y → d'.contents y = d.contents y) :
    d'.itemAt? x p = d.itemAt? x p := by
  induction p generalizing x with
  | nil => rfl
  | cons k p ih =>
    rw [itemAt?_cons, itemAt?_cons, h [] x rfl]
    unfold itemIn?
    cases hk : (d.contents x)[k]? with
    | none => rfl
    | some y =>
      refine ih fun q z hz => h (k :: q) z ?_
      rw [itemAt?_cons, itemIn?, hk]
      exact hz

theorem itemIn?_congr (h : ∀ k p y, d.itemIn? l k p = some y → d'.contents y = d.contents y) :
    d'.itemIn? l k p = d.itemIn? l k p := by
  unfold itemIn?
  cases hk : l[k]? with
  | none => rfl
  | some y =>
    refine itemAt?_congr fun q z hz => h k q z ?_
    rw [itemIn?, hk]
    exact hz

/-! ## Changes that copies live through -/

/-- The definitions in `N` say the same; where they are, and what they contain, may have changed. -/
structure SaysSame (N : Item → Prop) (d d' : Draft) : Prop where
  node : ∀ i, N (.site (.node i)) → d'.node i = { (d.node i).withPath (d'.node i).path with
    children := (d'.node i).children
    uses := (d'.node i).uses
    parent := (d'.node i).parent }
  uses : ∀ u, N (.uses u) → (d'.usesOf u).facts = (d.usesOf u).facts
  augment : ∀ a, N (.site (.augment a)) → (d'.augment a).facts = (d.augment a).facts ∧
    (d'.augment a).origin = (d.augment a).origin

/-- The definitions in `N` say and contain the same. -/
structure Steady (N : Item → Prop) (d d' : Draft) : Prop extends SaysSame N d d' where
  contents : ∀ y, N y → d'.contents y = d.contents y

theorem SaysSame.itemLike (hs : SaysSame N d d') (hy : N y) (h : style.ItemLike d₀ d x y) :
    style.ItemLike d₀ d' x y := by
  cases h with
  | node h =>
    refine .node ?_
    rw [hs.node _ hy]
    exact ⟨h.origin, h.name, h.kind, h.docs, h.config, h.constraints, h.properties, h.typedefs,
      h.groupings, h.augmentations, h.byUses, h.augmenting, h.unknown⟩
  | uses h =>
    refine .uses ⟨?_, ?_, ?_, ?_⟩
    all_goals rw [hs.uses _ hy]
    · exact h.grouping
    · exact h.refines
    · exact h.byUses
    · exact h.augmenting
  | augment h =>
    obtain ⟨hfacts, horigin⟩ := hs.augment _ hy
    refine .augment ⟨horigin.trans h.origin, ?_, ?_, ?_, ?_, ?_, ?_⟩
    all_goals rw [hfacts]
    · exact h.target
    · exact h.home
    · exact h.order
    · exact h.condition
    · exact h.docs
    · exact h.unknown

namespace Steady

theorem mono (h : Steady N d d') (hN : ∀ y, N' y → N y) : Steady N' d d' where
  node i hi := h.node i (hN _ hi)
  uses u hu := h.uses u (hN _ hu)
  augment a ha := h.augment a (hN _ ha)
  contents y hy := h.contents y (hN y hy)

theorem of_extends (h : d.Extends d') : Steady d.HasItem d d' where
  node i hi := by
    rw [h.node i hi]
    rfl
  uses u hu := congrArg UsesDraft.facts (h.usesOf u hu)
  augment a ha := by
    rw [h.augment a ha]
    exact ⟨rfl, rfl⟩
  contents _ hy := h.contents hy

/-- Only paths are other ones. -/
theorem of_repathed (h : d.Repathed d') : Steady N d d' where
  node i _ := by
    rw [h.node i]
    rfl
  uses u _ := congrArg UsesDraft.facts (h.usesOf u)
  augment a _ := by
    rw [h.augment a]
    exact ⟨rfl, rfl⟩
  contents y _ := h.contents y

end Steady

/-! ## Lists of copies -/

/-- `l'` are copies of `l` with all that is below them; the copies are among `N`. -/
structure Mirrors (style : CopyStyle) (d₀ : Draft) (N : Item → Prop) (d : Draft) (l l' : List Item) :
    Prop where
  length : l'.length = l.length
  alike : ∀ k p, Option.Rel (style.ItemLike d₀ d) (d₀.itemIn? l k p) (d.itemIn? l' k p)
  inside : ∀ k p y, d.itemIn? l' k p = some y → N y
  /-- No copy stands at two places. -/
  once : ∀ k p n q y, d.itemIn? l' k p = some y → d.itemIn? l' n q = some y → k = n ∧ p = q

namespace Mirrors

theorem nil : Mirrors style d₀ N d [] [] where
  length := rfl
  alike _ _ := .none
  inside _ _ _ h := by cases h
  once _ _ _ _ _ h := by cases h

theorem mono (h : Mirrors style d₀ N d l l') (hN : ∀ y, N y → N' y) : Mirrors style d₀ N' d l l' where
  length := h.length
  alike := h.alike
  inside k p y hy := hN y (h.inside k p y hy)
  once := h.once

theorem steady (h : Mirrors style d₀ N d l l') (hs : Steady N d d') : Mirrors style d₀ N d' l l' := by
  have heq : ∀ k p, d'.itemIn? l' k p = d.itemIn? l' k p := fun k p =>
    itemIn?_congr fun k p y hy => hs.contents y (h.inside k p y hy)
  refine ⟨h.length, fun k p => ?_, fun k p y hy => ?_, fun k p n q y hy hy' => ?_⟩
  · rw [heq]
    have hkp := h.alike k p
    have hin := h.inside k p
    generalize d₀.itemIn? l k p = a at hkp
    generalize d.itemIn? l' k p = b at hkp hin
    cases hkp with
    | none => exact .none
    | some hxy => exact .some (hs.toSaysSame.itemLike (hin _ rfl) hxy)
  · exact h.inside k p y ((heq k p).symm.trans hy)
  · exact h.once k p n q y ((heq k p).symm.trans hy) ((heq n q).symm.trans hy')

theorem append (h : Mirrors style d₀ N d l l') (h' : Mirrors style d₀ N' d m m')
    (hN : ∀ y, N y → ¬ N' y) : Mirrors style d₀ (fun y => N y ∨ N' y) d (l ++ m) (l' ++ m') := by
  have hin : ∀ k p y, d.itemIn? (l' ++ m') k p = some y →
      k < l.length ∧ d.itemIn? l' k p = some y ∧ N y ∨
      ¬ k < l.length ∧ d.itemIn? m' (k - l.length) p = some y ∧ N' y := by
    intro k p y hy
    rw [itemIn?_append, h.length] at hy
    split at hy
    · next hk => exact .inl ⟨hk, hy, h.inside k p y hy⟩
    · next hk => exact .inr ⟨hk, hy, h'.inside _ p y hy⟩
  refine ⟨by simp [h.length, h'.length], fun k p => ?_, fun k p y hy => ?_, fun k p n q y hy hy' => ?_⟩
  · rw [itemIn?_append, itemIn?_append, h.length]
    split
    · exact h.alike k p
    · exact h'.alike _ p
  · exact (hin k p y hy).imp (·.2.2) (·.2.2)
  · rcases hin k p y hy with ⟨-, hy, hNy⟩ | ⟨hk, hy, hNy⟩ <;>
      rcases hin n q y hy' with ⟨-, hy', hNy'⟩ | ⟨hn, hy', hNy'⟩
    · exact h.once k p n q y hy hy'
    · exact absurd hNy' (hN y hNy)
    · exact absurd hNy (hN y hNy')
    · obtain ⟨hkn, hpq⟩ := h'.once _ p _ q y hy hy'
      exact ⟨by omega, hpq⟩

/-- A copy is put around the copies of what its source contains. -/
theorem around (h : Mirrors style d₀ N d (d₀.contents x) (d.contents x')) (hx : style.ItemLike d₀ d x x')
    (hN : ¬ N x') : Mirrors style d₀ (fun y => y = x' ∨ N y) d [x] [x'] := by
  have hin : ∀ k p y, d.itemIn? [x'] k p = some y → k = 0 ∧
      (p = [] ∧ y = x' ∨ ∃ n q, p = n :: q ∧ d.itemIn? (d.contents x') n q = some y ∧ N y) := by
    intro k p y hy
    rw [itemIn?_singleton] at hy
    split at hy
    · next hk =>
      refine ⟨hk, ?_⟩
      cases p with
      | nil => exact .inl ⟨rfl, (Option.some.inj hy).symm⟩
      | cons n q => exact .inr ⟨n, q, rfl, hy, h.inside n q y hy⟩
    · cases hy
  refine ⟨rfl, fun k p => ?_, fun k p y hy => ?_, fun k p n q y hy hy' => ?_⟩
  · rw [itemIn?_singleton, itemIn?_singleton]
    split
    · cases p with
      | nil => exact .some hx
      | cons n q => exact h.alike n q
    · exact .none
  · rcases (hin k p y hy).2 with ⟨-, rfl⟩ | ⟨-, -, -, -, hy⟩
    · exact .inl rfl
    · exact .inr hy
  · obtain ⟨rfl, hp⟩ := hin k p y hy
    obtain ⟨rfl, hq⟩ := hin n q y hy'
    refine ⟨rfl, ?_⟩
    rcases hp with ⟨rfl, rfl⟩ | ⟨a, p, rfl, hp, hNy⟩ <;> rcases hq with ⟨rfl, heq⟩ | ⟨b, q, rfl, hq, hNy'⟩
    · rfl
    · exact absurd hNy' hN
    · exact absurd hNy (heq ▸ hN)
    · obtain ⟨rfl, rfl⟩ := h.once a p b q y hp hq
      rfl

end Mirrors

end Draft

end YangSchema
