/-!
# Cutting text at separators

`cut` splits at the first separator, `fields` at every one; joining the fields with the separator
gives the text back (`intercalate_fields`), and no field holds a separator.
-/

namespace YangSchema.Text

/-- What stands before and after the first `sep`, if there is one. -/
def cut (sep : Char) : List Char → Option (List Char × List Char)
  | [] => none
  | c :: s =>
    if c = sep then some ([], s)
    else (cut sep s).map fun (before, after) => (c :: before, after)

/-- The parts between the characters that `separates` selects. -/
def fieldsBy (separates : Char → Bool) : List Char → List (List Char)
  | [] => [[]]
  | c :: s =>
    if separates c then [] :: fieldsBy separates s
    else match fieldsBy separates s with
      | [] => [[c]]
      | f :: fs => (c :: f) :: fs

/-- The parts between the separators; a text without a separator is one field. -/
def fields (sep : Char) (s : List Char) : List (List Char) := fieldsBy (· == sep) s

/-! ## Lemmas -/

theorem eq_append_of_cut {sep : Char} {s before after : List Char}
    (h : cut sep s = some (before, after)) : s = before ++ sep :: after ∧ sep ∉ before := by
  induction s generalizing before with
  | nil => simp [cut] at h
  | cons c s ih =>
    rw [cut] at h
    split at h
    · rename_i hc
      simp only [Option.some.injEq, Prod.mk.injEq] at h
      obtain ⟨rfl, rfl⟩ := h
      simp [hc]
    · rename_i hc
      obtain ⟨⟨b, a⟩, hcut, hba⟩ := Option.map_eq_some_iff.1 h
      simp only [Prod.mk.injEq] at hba
      obtain ⟨rfl, rfl⟩ := hba
      obtain ⟨rfl, hmem⟩ := ih hcut
      simp [Ne.symm hc, hmem]

theorem cut_append {sep : Char} {before : List Char} (after : List Char) (h : sep ∉ before) :
    cut sep (before ++ sep :: after) = some (before, after) := by
  induction before with
  | nil => simp [cut]
  | cons c b ih =>
    simp only [List.mem_cons, not_or] at h
    simp [cut, Ne.symm h.1, ih h.2]

theorem cut_eq_none_iff {sep : Char} {s : List Char} : cut sep s = none ↔ sep ∉ s := by
  induction s with
  | nil => simp [cut]
  | cons c s ih =>
    rw [cut]
    split
    · rename_i hc
      simp [hc]
    · rename_i hc
      simp [ih, Ne.symm hc]

theorem fieldsBy_ne_nil (p : Char → Bool) (s : List Char) : fieldsBy p s ≠ [] := by
  cases s with
  | nil => simp [fieldsBy]
  | cons c s =>
    rw [fieldsBy]
    split
    · simp
    · split <;> simp

theorem not_separates_of_mem_fieldsBy {p : Char → Bool} {s f : List Char} {c : Char}
    (h : f ∈ fieldsBy p s) (hc : c ∈ f) : p c = false := by
  induction s generalizing f with
  | nil => simp_all [fieldsBy]
  | cons d s ih =>
    rw [fieldsBy] at h
    split at h
    · rcases List.mem_cons.1 h with rfl | h
      · simp at hc
      · exact ih h hc
    · rename_i hd
      split at h
      · rename_i hs
        exact absurd hs (fieldsBy_ne_nil p s)
      · rename_i g gs hs
        rcases List.mem_cons.1 h with rfl | h
        · rcases List.mem_cons.1 hc with rfl | hc
          · simpa using hd
          · exact ih (f := g) (by simp [hs]) hc
        · exact ih (by simp [hs, h]) hc

theorem not_mem_of_mem_fields {sep : Char} {s f : List Char} (h : f ∈ fields sep s) :
    sep ∉ f := by
  intro hmem
  simpa using not_separates_of_mem_fieldsBy h hmem

theorem intercalate_fields (sep : Char) (s : List Char) :
    [sep].intercalate (fields sep s) = s := by
  unfold fields
  induction s with
  | nil => simp [fieldsBy]
  | cons c s ih =>
    rw [fieldsBy]
    split
    · rename_i hc
      cases hs : fieldsBy (· == sep) s with
      | nil => exact absurd hs (fieldsBy_ne_nil _ s)
      | cons f fs =>
        rw [hs] at ih
        rw [← ih, beq_iff_eq.1 hc]
        simp [List.intercalate, List.intersperse]
    · cases hs : fieldsBy (· == sep) s with
      | nil => exact absurd hs (fieldsBy_ne_nil _ s)
      | cons f fs =>
        rw [hs] at ih
        rw [← ih]
        cases fs <;> simp [List.intercalate, List.intersperse]

end YangSchema.Text
