import Mathlib.Data.List.Chain
import Mathlib.Data.List.TakeWhile
import Mathlib.Logic.Relation
import YangSchema.Fault

/-!
# Depth-first search with a trail

`search` lists an element after all that it refers to.  The trail holds the elements on the way to
the one at hand, and an element that is met again on its own trail closes a circle.  The imports and
includes of sources and the uses of groupings are both searched in this way.

What the search comes to (`search_finds`): a list without repetitions in which each element comes
after all that it refers to (`Sorted`), or a circle of references (`Circle`).  A sorted list has no
circles in it (`Sorted.not_transGen_self`), so the search succeeds exactly if there are none.
-/

namespace YangSchema

open Relation

section Search

variable {α κ : Type} [DecidableEq κ]

/-- Lists `x` after all that it refers to.  `done` is listed already; elements are told apart by
their keys. -/
def search (key : α → κ) (targets : α → Except Fault (List α)) (circular : List α → Fault)
    (endless : α → Fault) : Nat → List α → List α → α → Except Fault (List α)
  | fuel, trail, done, x =>
    if done.any (key · == key x) then .ok done
    else if trail.any (key · == key x) then
      .error (circular (trail.dropWhile (key · != key x) ++ [x]))
    else match fuel with
      | 0 => .error (endless x)
      | fuel + 1 => do
        let ts ← targets x
        let done ← ts.foldlM (search key targets circular endless fuel (trail ++ [x])) done
        return done ++ [x]

end Search

/-! ## Sorted lists and circles -/

section Sorted

variable {α : Type} {next : α → α → Prop} {l : List α} {x y : α}

/-- No element twice, and each after all that it refers to. -/
structure Sorted (next : α → α → Prop) (l : List α) : Prop where
  nodup : l.Nodup
  before : ∀ pre x post, l = pre ++ x :: post → ∀ y, next x y → y ∈ pre

theorem Sorted.nil : Sorted next [] := ⟨.nil, fun pre x post h => by simp at h⟩

theorem Sorted.concat (h : Sorted next l) (hx : x ∉ l) (hnext : ∀ y, next x y → y ∈ l) :
    Sorted next (l ++ [x]) where
  nodup := by
    rw [List.nodup_append]
    refine ⟨h.nodup, by simp, fun y hy z hz => ?_⟩
    rw [List.mem_singleton.1 hz]
    rintro rfl
    exact hx hy
  before pre z post hsplit y hy := by
    rcases List.eq_nil_or_concat post with rfl | ⟨post', w, rfl⟩
    · -- the new element comes last
      obtain ⟨rfl, hz⟩ := List.append_inj' hsplit rfl
      cases hz
      exact hnext y hy
    · rw [List.concat_eq_append, ← List.cons_append, ← List.append_assoc] at hsplit
      obtain ⟨hl, -⟩ := List.append_inj' hsplit rfl
      exact h.before pre z post' hl y hy

/-- What is reached from an element comes before it. -/
theorem Sorted.mem_of_transGen (h : Sorted next l) {pre post : List α} (hl : l = pre ++ x :: post)
    (hxy : TransGen next x y) : y ∈ pre := by
  induction hxy with
  | single hxy => exact h.before pre x post hl _ hxy
  | @tail z y _ hzy ih =>
    obtain ⟨pre₁, pre₂, rfl⟩ := List.append_of_mem ih
    refine List.mem_append_left _ (h.before pre₁ z (pre₂ ++ x :: post) ?_ y hzy)
    rw [hl, List.append_assoc, List.cons_append]

theorem Sorted.idxOf_lt [DecidableEq α] (h : Sorted next l) (hx : x ∈ l) (hxy : next x y) :
    l.idxOf y < l.idxOf x := by
  obtain ⟨pre, post, rfl, hnot⟩ := List.eq_append_cons_of_mem hx
  have hy := h.before pre x post rfl y hxy
  rw [List.idxOf_append_of_mem hy, List.idxOf_append_of_notMem hnot]
  have := List.idxOf_lt_length_of_mem hy
  omega

theorem Sorted.not_transGen_self (h : Sorted next l) (hx : x ∈ l) : ¬ TransGen next x x := by
  intro hxx
  obtain ⟨pre, post, rfl⟩ := List.append_of_mem hx
  have hpre := h.mem_of_transGen rfl hxx
  exact (List.nodup_append.1 h.nodup).2.2 x hpre x List.mem_cons_self rfl

theorem isChain_concat {l : List α} (h : (l ++ [x]).IsChain next) (hxy : next x y) :
    (l ++ [x] ++ [y]).IsChain next := by
  refine List.isChain_append.2 ⟨h, .singleton y, fun z hz w hw => ?_⟩
  simp only [List.getLast?_concat, Option.mem_def, Option.some.injEq, List.head?_cons] at hz hw
  exact hz ▸ hw ▸ hxy

/-- Each element refers to the following one, and the first is the last. -/
structure Circle (next : α → α → Prop) (c : List α) : Prop where
  closed : ∃ x mid, c = x :: mid ++ [x]
  chain : c.IsChain next

theorem transGen_of_isChain {mid : List α} (h : (x :: mid ++ [y]).IsChain next) :
    TransGen next x y := by
  induction mid generalizing x with
  | nil => exact .single (List.isChain_pair.1 h)
  | cons z mid ih =>
    rw [List.cons_append, List.cons_append, List.isChain_cons_cons] at h
    exact .head h.1 (ih h.2)

theorem Circle.exists_transGen {c : List α} (h : Circle next c) : ∃ x ∈ c, TransGen next x x := by
  obtain ⟨x, mid, rfl⟩ := h.closed
  exact ⟨x, List.mem_cons_self, transGen_of_isChain h.chain⟩

end Sorted

/-! ## What a search finds -/

section Finds

variable {α κ : Type} [DecidableEq κ] {key : α → κ} {targets : α → Except Fault (List α)}
  {circular : List α → Fault} {endless : α → Fault} {next : α → α → Prop} {inside : α → Prop}

/-- The references of what is inside are known and lead inside, where elements differ in their keys. -/
structure Searchable (key : α → κ) (targets : α → Except Fault (List α)) (next : α → α → Prop)
    (inside : α → Prop) : Prop where
  targets : ∀ x, inside x → ∃ ts, targets x = .ok ts ∧ ∀ y, y ∈ ts ↔ next x y
  closed : ∀ x y, inside x → next x y → inside y
  key_inj : ∀ x y, inside x → inside y → key x = key y → x = y

/-- What the search for `xs` comes to: more that is done, a circle, or a trail of `n` elements that it
could not follow further. -/
inductive Finds (circular : List α → Fault) (endless : α → Fault) (next : α → α → Prop)
    (inside : α → Prop) (n : Nat) (trail done xs : List α) : Except Fault (List α) → Prop
  | sorted {done' : List α} (sorted : Sorted next done') (subset : done ⊆ done')
      (mem : xs ⊆ done') (new : ∀ y ∈ done', y ∈ done ∨ y ∉ trail ∧ inside y) :
      Finds circular endless next inside n trail done xs (.ok done')
  | circle {c : List α} (circle : Circle next c) :
      Finds circular endless next inside n trail done xs (.error (circular c))
  | long {l : List α} {x : α} (nodup : l.Nodup) (mem : ∀ y ∈ l, inside y) (length : l.length = n) :
      Finds circular endless next inside n trail done xs (.error (endless x))

theorem Finds.fold {visit : List α → α → Except Fault (List α)} {n : Nat} {trail : List α}
    {xs : List α} (hvisit : ∀ x ∈ xs, ∀ done, Sorted next done → (∀ y ∈ done, inside y) →
      Finds circular endless next inside n trail done [x] (visit done x)) :
    ∀ done, Sorted next done → (∀ y ∈ done, inside y) →
      Finds circular endless next inside n trail done xs (xs.foldlM visit done) := by
  induction xs with
  | nil =>
    intro done hdone _
    exact .sorted hdone (List.Subset.refl _) (List.nil_subset _) fun y hy => .inl hy
  | cons x xs ih =>
    intro done hdone hinside
    rw [List.foldlM_cons]
    have hx := hvisit x List.mem_cons_self done hdone hinside
    generalize visit done x = res at hx
    cases hx with
    | circle hc => exact .circle hc
    | long h₁ h₂ h₃ => exact .long h₁ h₂ h₃
    | @sorted done₁ hsorted hsub hmem hnew =>
      have hinside₁ : ∀ y ∈ done₁, inside y := fun y hy =>
        (hnew y hy).elim (hinside y) And.right
      have hrest := ih (fun x hx => hvisit x (List.mem_cons_of_mem _ hx)) done₁ hsorted hinside₁
      show Finds circular endless next inside n trail done (x :: xs) (xs.foldlM visit done₁)
      generalize xs.foldlM visit done₁ = res at hrest
      cases hrest with
      | circle hc => exact .circle hc
      | long h₁ h₂ h₃ => exact .long h₁ h₂ h₃
      | sorted hsorted' hsub' hmem' hnew' =>
        refine .sorted hsorted' (List.Subset.trans hsub hsub')
          (List.cons_subset.2 ⟨hsub' (hmem List.mem_cons_self), hmem'⟩) fun y hy => ?_
        exact (hnew' y hy).elim (hnew y) .inr

/-- After what an element refers to, the element itself is done. -/
theorem Finds.concat {n : Nat} {trail done ts : List α} {x : α} {res : Except Fault (List α)}
    (h : Finds circular endless next inside n (trail ++ [x]) done ts res) (hts : ∀ y, next x y → y ∈ ts)
    (hx : inside x) (hdone : x ∉ done) (htrail : x ∉ trail) :
    Finds circular endless next inside n trail done [x] (res.bind fun done => .ok (done ++ [x])) := by
  cases h with
  | circle hc => exact .circle hc
  | long h₁ h₂ h₃ => exact .long h₁ h₂ h₃
  | @sorted done' hsorted hsub hmem hnew =>
    have hx' : x ∉ done' := by
      intro hmem
      rcases hnew x hmem with hmem | ⟨hmem, -⟩
      · exact hdone hmem
      · exact hmem (by simp)
    refine .sorted (hsorted.concat hx' fun y hy => hmem (hts y hy))
      (List.subset_append_of_subset_left _ hsub) (by simp) fun y hy => ?_
    rcases List.mem_append.1 hy with hy | hy
    · exact (hnew y hy).imp_right (And.imp_left fun hoff hy => hoff (List.mem_append_left _ hy))
    · rw [List.mem_singleton.1 hy]
      exact .inr ⟨htrail, hx⟩

/-- An element of the trail and what the search met it from close a circle. -/
theorem Circle.of_trail {trail : List α} {x : α} (hchain : (trail ++ [x]).IsChain next)
    (hx : x ∈ trail) (hkey : ∀ y ∈ trail, key y = key x → y = x) :
    Circle next (trail.dropWhile (key · != key x) ++ [x]) := by
  have hne : trail.dropWhile (key · != key x) ≠ [] := by
    intro hnil
    rw [List.dropWhile_eq_nil_iff] at hnil
    simpa using hnil x hx
  have hsuffix := List.dropWhile_suffix (fun y => key y != key x) (l := trail)
  obtain ⟨y, mid, hsplit⟩ := List.exists_cons_of_ne_nil hne
  have hy : y = x := by
    have hhead := List.head_dropWhile_not (fun y => key y != key x) hne
    simp only [hsplit, List.head_cons, bne_eq_false_iff_eq] at hhead
    exact hkey y (hsuffix.subset (hsplit ▸ List.mem_cons_self)) hhead
  refine ⟨⟨x, mid, by rw [hsplit, hy]⟩, hchain.suffix ?_⟩
  obtain ⟨pre, hpre⟩ := hsuffix
  exact ⟨pre, by rw [← List.append_assoc, hpre]⟩

theorem Searchable.search_finds (h : Searchable key targets next inside) (n fuel : Nat) :
    ∀ trail done x, n = trail.length + fuel + 1 → trail.Nodup → (∀ y ∈ trail, inside y) →
      (trail ++ [x]).IsChain next → inside x → Sorted next done → (∀ y ∈ done, inside y) →
      Finds circular endless next inside n trail done [x]
        (search key targets circular endless fuel trail done x) := by
  induction fuel using Nat.strong_induction_on with
  | _ fuel ih =>
  intro trail done x hn hnodup htrail hchain hx hdone hinside
  unfold search
  split
  · next hmem =>
    obtain ⟨y, hy, hkey⟩ := List.any_eq_true.1 hmem
    obtain rfl := h.key_inj y x (hinside y hy) hx (by simpa using hkey)
    exact .sorted hdone (List.Subset.refl _) (by simpa using hy) fun z hz => .inl hz
  next hnew =>
  split
  · next hmem =>
    obtain ⟨y, hy, hkey⟩ := List.any_eq_true.1 hmem
    obtain rfl := h.key_inj y x (htrail y hy) hx (by simpa using hkey)
    exact .circle (.of_trail hchain hy fun z hz => h.key_inj z y (htrail z hz) hx)
  next hoff =>
  have hoff : x ∉ trail := fun hmem => hoff (List.any_eq_true.2 ⟨x, hmem, by simp⟩)
  have hnodup' : (trail ++ [x]).Nodup := by
    rw [List.nodup_append]
    refine ⟨hnodup, by simp, fun y hy z hz => ?_⟩
    rw [List.mem_singleton.1 hz]
    rintro rfl
    exact hoff hy
  have htrail' : ∀ y ∈ trail ++ [x], inside y := by
    intro y hy
    rcases List.mem_append.1 hy with hy | hy
    · exact htrail y hy
    · exact List.mem_singleton.1 hy ▸ hx
  cases fuel with
  | zero => exact .long hnodup' htrail' (by simpa using hn.symm)
  | succ fuel =>
    obtain ⟨ts, hts, hmem⟩ := h.targets x hx
    dsimp only
    rw [hts]
    have hfold : Finds circular endless next inside n (trail ++ [x]) done ts
        (ts.foldlM (search key targets circular endless fuel (trail ++ [x])) done) := Finds.fold
      (fun y hy done hdone hinside => ih fuel (Nat.lt_succ_self _) (trail ++ [x]) done y
        (by simp; omega) hnodup' htrail' (isChain_concat hchain ((hmem y).1 hy))
        (h.closed x y hx ((hmem y).1 hy)) hdone hinside) done hdone hinside
    refine hfold.concat (fun y hy => (hmem y).2 hy) hx (fun hmem => ?_) hoff
    exact hnew (List.any_eq_true.2 ⟨x, hmem, by simp⟩)

variable (circular endless)

theorem Searchable.foldlM_finds (h : Searchable key targets next inside) (fuel : Nat) {xs : List α}
    (hxs : ∀ x ∈ xs, inside x) : Finds circular endless next inside (fuel + 1) [] [] xs
      (xs.foldlM (search key targets circular endless fuel []) []) :=
  Finds.fold (fun x hx done hdone hinside => h.search_finds (fuel + 1) fuel [] done x (by simp) .nil
    (by simp) (.singleton x) (hxs x hx) hdone hinside) [] .nil (by simp)

/-- A search with fuel for every trail lists all that it is asked for, or finds a circle. -/
theorem Searchable.sorted_or_circle (h : Searchable key targets next inside) {fuel : Nat}
    (hfuel : ∀ l : List α, l.Nodup → (∀ y ∈ l, inside y) → l.length ≤ fuel) {xs : List α}
    (hxs : ∀ x ∈ xs, inside x) :
    (∃ done, xs.foldlM (search key targets circular endless fuel []) [] = .ok done ∧
      Sorted next done ∧ xs ⊆ done ∧ ∀ y ∈ done, inside y) ∨
    ∃ c, xs.foldlM (search key targets circular endless fuel []) [] = .error (circular c) ∧
      Circle next c := by
  have hfold := h.foldlM_finds circular endless fuel hxs
  generalize xs.foldlM (search key targets circular endless fuel []) [] = res at hfold
  cases hfold with
  | @sorted done hsorted _ hmem hnew =>
    exact .inl ⟨done, rfl, hsorted, hmem, fun y hy => ((hnew y hy).resolve_left (by simp)).2⟩
  | @circle c hc => exact .inr ⟨c, rfl, hc⟩
  | long hnodup hl hlength =>
    have := hfuel _ hnodup hl
    omega

end Finds

end YangSchema
