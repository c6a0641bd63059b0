/-!
# Ordered lists with one entry per key

An index is a list of entries in strictly increasing order of their keys (`Ordered`).  `insertBy`
puts an entry at the place of its key and takes the place of an entry that has the same key, so a
list built by insertions holds the last entry given for every key, and holds them in key order
(`ordered_insertBy`).
-/

namespace YangSchema

variable {κ α : Type} [Ord κ]

/-- The keys increase strictly: sorted, and each key once. -/
def Ordered (key : α → κ) (l : List α) : Prop :=
  l.Pairwise fun a b => compare (key a) (key b) = .lt

/-- Puts `a` at the place of its key, instead of an entry that has the key already. -/
def insertBy (key : α → κ) (a : α) : List α → List α
  | [] => [a]
  | b :: l => match compare (key a) (key b) with
    | .lt => a :: b :: l
    | .eq => a :: l
    | .gt => b :: insertBy key a l

/-- The last entry given for every key, in key order. -/
def orderedBy (key : α → κ) (l : List α) : List α :=
  l.foldl (fun index a => insertBy key a index) []

/-! ## Lemmas -/

theorem mem_of_mem_insertBy {key : α → κ} {a x : α} {l : List α} (h : x ∈ insertBy key a l) :
    x = a ∨ x ∈ l := by
  induction l with
  | nil => simpa [insertBy] using h
  | cons b l ih =>
    rw [insertBy] at h
    split at h
    · simpa using h
    · exact (List.mem_cons.1 h).imp_right (List.mem_cons_of_mem b)
    · rcases List.mem_cons.1 h with rfl | h
      · exact .inr List.mem_cons_self
      · exact (ih h).imp_right (List.mem_cons_of_mem b)

theorem mem_insertBy_self (key : α → κ) (a : α) (l : List α) : a ∈ insertBy key a l := by
  induction l with
  | nil => simp [insertBy]
  | cons b l ih =>
    rw [insertBy]
    split <;> simp [ih]

/-- An entry stays unless its key is given anew. -/
theorem mem_insertBy_of_ne {key : α → κ} {a x : α} {l : List α} (h : x ∈ l)
    (hne : compare (key a) (key x) ≠ .eq) : x ∈ insertBy key a l := by
  induction l with
  | nil => simp at h
  | cons b l ih =>
    rw [insertBy]
    rcases List.mem_cons.1 h with rfl | h
    · split <;> simp_all
    · split <;> simp_all

theorem ordered_insertBy [Std.TransOrd κ] {key : α → κ} {a : α} {l : List α}
    (h : Ordered key l) : Ordered key (insertBy key a l) := by
  induction l with
  | nil => simp [insertBy, Ordered]
  | cons b l ih =>
    obtain ⟨hb, hl⟩ := List.pairwise_cons.1 h
    rw [insertBy]
    split
    · rename_i hc
      refine List.pairwise_cons.2 ⟨fun x hx => ?_, h⟩
      rcases List.mem_cons.1 hx with rfl | hx
      · exact hc
      · exact Std.TransCmp.lt_trans hc (hb x hx)
    · rename_i hc
      exact List.pairwise_cons.2 ⟨fun x hx => Std.TransCmp.lt_of_eq_of_lt hc (hb x hx), hl⟩
    · rename_i hc
      refine List.pairwise_cons.2 ⟨fun x hx => ?_, ih hl⟩
      rcases mem_of_mem_insertBy hx with rfl | hx
      · exact Std.OrientedCmp.lt_of_gt hc
      · exact hb x hx

theorem ordered_foldl_insertBy [Std.TransOrd κ] {key : α → κ} (l index : List α)
    (h : Ordered key index) : Ordered key (l.foldl (fun index a => insertBy key a index) index) := by
  induction l generalizing index with
  | nil => exact h
  | cons a l ih => exact ih _ (ordered_insertBy h)

theorem ordered_orderedBy [Std.TransOrd κ] (key : α → κ) (l : List α) :
    Ordered key (orderedBy key l) :=
  ordered_foldl_insertBy l [] .nil

theorem mem_of_mem_orderedBy {key : α → κ} {x : α} {l : List α} (h : x ∈ orderedBy key l) :
    x ∈ l := by
  suffices H : ∀ index, x ∈ l.foldl (fun index a => insertBy key a index) index → x ∈ index ∨ x ∈ l
    from (H [] h).resolve_left (by simp)
  clear h
  induction l with
  | nil => exact fun index h => .inl h
  | cons a l ih =>
    intro index h
    rcases ih _ h with h | h
    · rcases mem_of_mem_insertBy h with rfl | h
      · exact .inr List.mem_cons_self
      · exact .inl h
    · exact .inr (List.mem_cons_of_mem a h)

/-- Where different entries have different keys, all of them are held. -/
theorem mem_orderedBy [Std.LawfulEqOrd κ] {key : α → κ} {x : α} {l : List α}
    (hkey : ∀ a ∈ l, ∀ b ∈ l, key a = key b → a = b) (h : x ∈ l) : x ∈ orderedBy key l := by
  suffices H : ∀ l' ⊆ l, ∀ index ⊆ l, x ∈ index ∨ x ∈ l' →
      x ∈ l'.foldl (fun index a => insertBy key a index) index
    from H l (List.Subset.refl _) [] (by simp) (.inr h)
  intro l'
  induction l' with
  | nil => exact fun _ index _ h => h.resolve_right (by simp)
  | cons a l' ih =>
    intro hl' index hindex hx
    obtain ⟨ha, hl'⟩ := List.cons_subset.1 hl'
    refine ih hl' _ (fun y hy => ?_) ?_
    · rcases mem_of_mem_insertBy hy with rfl | hy
      · exact ha
      · exact hindex hy
    · by_cases hc : compare (key a) (key x) = .eq
      · obtain rfl := hkey a ha x h (Std.LawfulEqOrd.eq_of_compare hc)
        exact .inl (mem_insertBy_self key a index)
      · rcases hx with hx | hx
        · exact .inl (mem_insertBy_of_ne hx hc)
        · rcases List.mem_cons.1 hx with rfl | hx
          · exact .inl (mem_insertBy_self key x index)
          · exact .inr hx

namespace Ordered

variable {key : α → κ} {l l' : List α}

theorem nodup_keys [Std.ReflOrd κ] (h : Ordered key l) : (l.map key).Nodup := by
  refine List.pairwise_map.2 (h.imp fun hlt heq => ?_)
  rw [heq, Std.ReflOrd.compare_self] at hlt
  cases hlt

theorem nodup [Std.ReflOrd κ] (h : Ordered key l) : l.Nodup :=
  (List.pairwise_map.1 h.nodup_keys).imp fun {_ _} hne heq => hne (congrArg key heq)

theorem eq_of_perm [Std.OrientedOrd κ] (h : Ordered key l) (h' : Ordered key l') (hl : l.Perm l') :
    l = l' := by
  refine hl.eq_of_pairwise (fun a b _ _ hab hba => ?_) h h'
  rw [Std.OrientedCmp.gt_of_lt hba] at hab
  cases hab

/-- An index is determined by its entries. -/
theorem eq_of_mem_iff [Std.OrientedOrd κ] (h : Ordered key l) (h' : Ordered key l')
    (hl : ∀ a, a ∈ l ↔ a ∈ l') : l = l' :=
  h.eq_of_perm h' ((List.perm_ext_iff_of_nodup h.nodup h'.nodup).2 fun {a} => hl a)

end Ordered

end YangSchema
