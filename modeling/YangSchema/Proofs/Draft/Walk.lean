import YangSchema.Proofs.Draft.Sound

/-!
# Ways through a draft

A path leads from a site to everything below that the names on it fit (`Leads`).  `descend` takes the
first child of each name, as `findDescendant` does (`findDescendant_eq_some`), so it follows one of
these ways.  In a sound draft there is only one path from a site to another (`Leads.path_unique`).
-/

namespace YangSchema

namespace Draft

variable {d : Draft}

/-! ## Going down -/

/-- The site at the end of the given steps below a site, always by the first child of the name. -/
def descend (d : Draft) : Site → List QName → Option Site
  | s, [] => some s
  | s, q :: p => (d.findChild s q).bind fun c => d.descend (.node c) p

/-- `p` are the names on a way from the site `s` down to `x`. -/
inductive Leads (d : Draft) : Site → List QName → Site → Prop
  | nil (s : Site) : Leads d s [] s
  | cons {s x : Site} {c : NodeId} {p : List QName} (hc : c ∈ d.childrenOf s)
    (h : Leads d (.node c) p x) : Leads d s ((d.node c).name :: p) x

theorem findChild_eq_some {s : Site} {q : QName} {c : NodeId} (h : d.findChild s q = some c) :
    c ∈ d.childrenOf s ∧ (d.node c).name = q := by
  unfold findChild at h
  exact ⟨List.mem_of_find?_eq_some h, by simpa using List.find?_some h⟩

theorem descend_cons {s x : Site} {q : QName} {p : List QName} :
    d.descend s (q :: p) = some x ↔ ∃ c, d.findChild s q = some c ∧ d.descend (.node c) p = some x :=
  Option.bind_eq_some_iff

theorem descend_append (s : Site) (p p' : List QName) :
    d.descend s (p ++ p') = (d.descend s p).bind fun x => d.descend x p' := by
  induction p generalizing s with
  | nil => rfl
  | cons q p ih =>
    show (d.findChild s q).bind _ = ((d.findChild s q).bind _).bind _
    rw [Option.bind_assoc]
    congr
    funext c
    exact ih (.node c)

theorem descend_append_eq_some {s x : Site} {p p' : List QName} :
    d.descend s (p ++ p') = some x ↔ ∃ y, d.descend s p = some y ∧ d.descend y p' = some x := by
  rw [descend_append]
  exact Option.bind_eq_some_iff

/-- Going down by at least one step ends at a node. -/
theorem exists_node_of_descend {s x : Site} {p : List QName} (hp : p ≠ [])
    (h : d.descend s p = some x) : ∃ i, x = .node i := by
  induction p generalizing s with
  | nil => exact absurd rfl hp
  | cons q p ih =>
    obtain ⟨c, -, h⟩ := descend_cons.1 h
    cases p with
    | nil => exact ⟨c, (Option.some.inj h).symm⟩
    | cons q' p => exact ih (List.cons_ne_nil q' p) h

theorem findDescendant_eq_some {s : Site} {p : List QName} {i : NodeId} :
    d.findDescendant s p = some i ↔ p ≠ [] ∧ d.descend s p = some (.node i) := by
  induction p generalizing s with
  | nil => simp [findDescendant]
  | cons q p ih =>
    rw [descend_cons]
    cases p with
    | nil => simp [findDescendant, descend]
    | cons q' p =>
      rw [findDescendant, Option.bind_eq_some_iff]
      · simp only [ih, ne_eq, reduceCtorEq, not_false_eq_true, true_and]
      · exact fun h => List.cons_ne_nil q' p h

/-! ## Ways -/

theorem Leads.of_descend {s x : Site} {p : List QName} (h : d.descend s p = some x) :
    d.Leads s p x := by
  induction p generalizing s with
  | nil =>
    cases h
    exact .nil _
  | cons q p ih =>
    obtain ⟨c, hc, hx⟩ := descend_cons.1 h
    obtain ⟨hmem, rfl⟩ := findChild_eq_some hc
    exact .cons hmem (ih hx)

namespace Leads

theorem append {s x y : Site} {p p' : List QName} (h : d.Leads s p x) (h' : d.Leads x p' y) :
    d.Leads s (p ++ p') y := by
  induction h with
  | nil => exact h'
  | cons hc _ ih => exact .cons hc (ih h')

theorem snoc {s x : Site} {p : List QName} {c : NodeId} (h : d.Leads s p x)
    (hc : c ∈ d.childrenOf x) : d.Leads s (p ++ [(d.node c).name]) (.node c) :=
  h.append (.cons hc (.nil _))

theorem of_snoc {s x : Site} {p : List QName} {q : QName} (h : d.Leads s (p ++ [q]) x) :
    ∃ y, d.Leads s p y ∧ ∃ c ∈ d.childrenOf y, (d.node c).name = q ∧ x = .node c := by
  induction p generalizing s with
  | nil =>
    cases h with
    | @cons _ _ c _ hc h =>
      cases h
      exact ⟨s, .nil s, c, hc, rfl, rfl⟩
  | cons q' p ih =>
    cases h with
    | cons hc h =>
      obtain ⟨y, hy, hx⟩ := ih h
      exact ⟨y, .cons hc hy, hx⟩

/-- Ways stay where nothing changes below the start. -/
theorem of_closed {e : Draft} {N : Site → Prop} (hN : ∀ t, ∀ c ∈ d.childrenOf t, N t → N (.node c))
    (hchildren : ∀ t, N t → e.childrenOf t = d.childrenOf t)
    (hname : ∀ i, N (.node i) → (e.node i).name = (d.node i).name) {s x : Site}
    {p : List QName} (hs : N s) (h : d.Leads s p x) : N x ∧ e.Leads s p x := by
  induction h with
  | nil => exact ⟨hs, .nil _⟩
  | @cons s x c p hc _ ih =>
    have hNc := hN s c hc hs
    obtain ⟨hx, h⟩ := ih hNc
    refine ⟨hx, ?_⟩
    rw [← hname c hNc]
    exact .cons (by rw [hchildren s hs]; exact hc) h

variable (hd : d.Sound)
include hd

theorem under {s x : Site} {p : List QName} (h : d.Leads s p x) : d.Under x s := by
  induction h with
  | nil => exact .refl _
  | cons hc _ ih => exact ih.trans (.up (hd.parent_eq hc) (.refl _))

theorem exists_of_under {s x : Site} (h : d.Under x s) : ∃ p, d.Leads s p x := by
  induction h with
  | refl => exact ⟨[], .nil _⟩
  | up hp _ ih =>
    obtain ⟨p, hp'⟩ := ih
    exact ⟨_, hp'.snoc ((hd.parent_iff _ _).2 hp)⟩

theorem path_unique {s x : Site} {p p' : List QName} (h : d.Leads s p x) (h' : d.Leads s p' x) :
    p = p' := by
  induction p using List.reverseRecOn generalizing p' x with
  | nil =>
    cases h
    rcases List.eq_nil_or_concat p' with rfl | ⟨p', q, rfl⟩
    · rfl
    · rw [List.concat_eq_append] at h'
      obtain ⟨y, hy, c, hc, -, rfl⟩ := h'.of_snoc
      exact absurd (hy.under hd) (hd.not_under_child (hd.parent_eq hc))
  | append_singleton p q ih =>
    obtain ⟨y, hy, c, hc, rfl, rfl⟩ := h.of_snoc
    rcases List.eq_nil_or_concat p' with rfl | ⟨p', q, rfl⟩
    · cases h'
      exact absurd (hy.under hd) (hd.not_under_child (hd.parent_eq hc))
    · rw [List.concat_eq_append] at h' ⊢
      obtain ⟨y', hy', c', hc', rfl, hcc⟩ := h'.of_snoc
      cases hcc
      have hyy : some y = some y' := (hd.parent_eq hc).symm.trans (hd.parent_eq hc')
      cases hyy
      rw [ih hy hy']

/-- Paths from modules that lead to one place are the same. -/
theorem path_unique_of_module {m m' : ModuleId} {x : Site} {p p' : List QName}
    (h : d.Leads (.module m) p x) (h' : d.Leads (.module m') p' x) : p = p' := by
  have hm : Site.module m = .module m' := (h.under hd).root_unique (h'.under hd)
    (fun i hi => (by cases hi)) fun i hi => (by cases hi)
  rw [← hm] at h'
  exact h.path_unique hd h'

/-- Equally many steps up from a site lead to one place. -/
theorem start_unique {s s' x : Site} {p p' : List QName} (h : d.Leads s p x) (h' : d.Leads s' p' x)
    (hlen : p.length = p'.length) : s = s' := by
  induction p using List.reverseRecOn generalizing p' x with
  | nil =>
    obtain rfl := List.eq_nil_of_length_eq_zero hlen.symm
    cases h
    cases h'
    rfl
  | append_singleton p q ih =>
    obtain ⟨y, hy, c, hc, rfl, rfl⟩ := h.of_snoc
    rcases List.eq_nil_or_concat p' with rfl | ⟨p', q, rfl⟩
    · simp at hlen
    · rw [List.concat_eq_append] at h' hlen
      obtain ⟨y', hy', c', hc', rfl, hcc⟩ := h'.of_snoc
      cases hcc
      have hyy : some y = some y' := (hd.parent_eq hc).symm.trans (hd.parent_eq hc')
      cases hyy
      exact ih hy hy' (by simpa using hlen)

end Leads

/-- A way down by first children passes every site between its ends. -/
theorem descend_through (hd : d.Sound) {s x y : Site} {p : List QName}
    (h : d.descend s p = some x) (hxy : d.Under x y) (hys : d.Under y s) :
    ∃ p₁ p₂, p = p₁ ++ p₂ ∧ d.descend s p₁ = some y ∧ d.descend y p₂ = some x := by
  obtain ⟨p₁, h₁⟩ := Leads.exists_of_under hd hys
  obtain ⟨p₂, h₂⟩ := Leads.exists_of_under hd hxy
  obtain rfl : p = p₁ ++ p₂ := (Leads.of_descend h).path_unique hd (h₁.append h₂)
  obtain ⟨y', hy', hx⟩ := descend_append_eq_some.1 h
  obtain rfl : y' = y := (Leads.of_descend hx).start_unique hd h₂ rfl
  exact ⟨p₁, p₂, rfl, hy', hx⟩

end Draft

end YangSchema
