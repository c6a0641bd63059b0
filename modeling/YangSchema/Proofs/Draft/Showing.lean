import YangSchema.Proofs.Draft.Grafting

/-!
# What can be seen below a site

A path from a site ends at a node, which one finds by the first child of each name or by any child
(`Reaches`).  `Shows` keeps the names and the keywords only, so that what stands below a site can be
compared over drafts.  As drafts grow, whatever can be seen stays (`Keeps.shows`), and no new way
leads to an old place (`Keeps.reaches_old`).
-/

namespace YangSchema

theorem exists_of_forall₂_right {α β : Type} {R : α → β → Prop} {l : List α} {r : List β} {b : β}
    (h : List.Forall₂ R l r) (hb : b ∈ r) : ∃ a ∈ l, R a b := by
  induction h with
  | nil => cases hb
  | cons hab _ ih =>
    rcases List.mem_cons.1 hb with rfl | hb
    · exact ⟨_, List.mem_cons_self, hab⟩
    · obtain ⟨a, ha, hab⟩ := ih hb
      exact ⟨a, List.mem_cons_of_mem _ ha, hab⟩

/-- Lists that correspond to one list correspond. -/
theorem forall₂_join {α β γ : Type} {R : α → β → Prop} {S : α → γ → Prop} {T : β → γ → Prop}
    {l : List α} {l' : List β} {l'' : List γ} (hR : List.Forall₂ R l l') (hS : List.Forall₂ S l l'')
    (hT : ∀ a ∈ l, ∀ b c, R a b → S a c → T b c) : List.Forall₂ T l' l'' := by
  induction hR generalizing l'' with
  | nil =>
    cases hS
    exact .nil
  | cons hab _ ih =>
    cases hS with
    | cons hac hS =>
      exact .cons (hT _ List.mem_cons_self _ _ hab hac)
        (ih hS fun a ha => hT a (List.mem_cons_of_mem _ ha))

/-- The first elements that are looked for in corresponding lists correspond. -/
theorem find?_forall₂ {α β : Type} {R : α → β → Prop} {p : α → Bool} {q : β → Bool} {l : List α}
    {r : List β} (h : List.Forall₂ R l r) (hp : ∀ a ∈ l, ∀ b, R a b → q b = p a) :
    Option.Rel R (l.find? p) (r.find? q) := by
  induction h with
  | nil => exact .none
  | @cons a b l r hab _ ih =>
    rw [List.find?_cons, List.find?_cons, hp a List.mem_cons_self b hab]
    split
    · exact .some hab
    · exact ih fun a ha => hp a (List.mem_cons_of_mem _ ha)

namespace Draft

variable {d d₁ : Draft} {first : Bool} {s t x y : Site} {p p' : List QName} {q : QName} {c : NodeId}

/-! ## Picking a child -/

/-- The node of the list that a name picks: the first that has it or, unless `first`, any. -/
def Picked (first : Bool) (name : NodeId → QName) (l : List NodeId) (q : QName) (c : NodeId) : Prop :=
  match first with
  | true => l.find? (fun c => name c == q) = some c
  | false => c ∈ l ∧ name c = q

namespace Picked

variable {name name' : NodeId → QName} {l l' : List NodeId}

theorem mem (h : Picked first name l q c) : c ∈ l := by
  cases first with
  | true => exact List.mem_of_find?_eq_some h
  | false => exact h.1

theorem name_eq (h : Picked first name l q c) : name c = q := by
  cases first with
  | true => simpa using List.find?_some h
  | false => exact h.2

theorem singleton (first : Bool) (name : NodeId → QName) (c : NodeId) :
    Picked first name [c] (name c) c := by
  cases first with
  | true => exact List.find?_cons_of_pos (by simp)
  | false => exact ⟨List.mem_singleton_self c, rfl⟩

theorem congr (hname : ∀ c ∈ l, name' c = name c) :
    Picked first name' l q c ↔ Picked first name l q c := by
  cases first with
  | true =>
    show l.find? _ = _ ↔ l.find? _ = _
    rw [List.find?_congr fun x hx => by rw [hname x hx]]
  | false =>
    constructor
    · rintro ⟨hc, h⟩
      exact ⟨hc, (hname c hc).symm.trans h⟩
    · rintro ⟨hc, h⟩
      exact ⟨hc, (hname c hc).trans h⟩

/-- The nodes in front are looked at first. -/
theorem append_left (h : Picked first name l q c) : Picked first name (l ++ l') q c := by
  cases first with
  | true =>
    show (l ++ l').find? _ = _
    rw [List.find?_append, h]
    rfl
  | false => exact ⟨List.mem_append_left _ h.1, h.2⟩

theorem of_append_left (h : Picked first name (l ++ l') q c) (hc : c ∈ l) :
    Picked first name l q c := by
  cases first with
  | true =>
    have hq := h.name_eq
    replace h : (l ++ l').find? _ = _ := h
    rw [List.find?_append] at h
    cases hl : l.find? fun c => name c == q with
    | none =>
      have := List.find?_eq_none.1 hl c hc
      simp [hq] at this
    | some c' =>
      rw [hl] at h
      exact hl.trans h
  | false => exact ⟨hc, h.2⟩

theorem append_right (h : Picked first name l' q c) (hl : ∀ x ∈ l, name x ≠ q) :
    Picked first name (l ++ l') q c := by
  cases first with
  | true =>
    have hnone : l.find? (fun c => name c == q) = none :=
      List.find?_eq_none.2 fun x hx => by simpa using hl x hx
    show (l ++ l').find? _ = _
    rw [List.find?_append, hnone]
    exact h
  | false => exact ⟨List.mem_append_right _ h.1, h.2⟩

theorem of_append_right (h : Picked first name (l ++ l') q c) (hc : c ∉ l) :
    Picked first name l' q c := by
  cases first with
  | true =>
    replace h : (l ++ l').find? _ = _ := h
    rw [List.find?_append] at h
    cases hl : l.find? fun c => name c == q with
    | none =>
      rw [hl] at h
      exact h
    | some c' =>
      rw [hl] at h
      cases h
      exact absurd (List.mem_of_find?_eq_some hl) hc
  | false => exact ⟨(List.mem_append.1 h.1).resolve_left hc, h.2⟩

/-- Lists with corresponding names pick corresponding nodes. -/
theorem forall₂ {R : NodeId → NodeId → Prop} (rename : QName → QName) (h : List.Forall₂ R l' l)
    (hname : ∀ c' ∈ l', ∀ c ∈ l, R c' c → name' c' = rename (name c))
    (hinj : ∀ c ∈ l, rename (name c) = rename q → name c = q) (hc : Picked first name l q c) :
    ∃ c', Picked first name' l' (rename q) c' ∧ R c' c := by
  cases first with
  | true =>
    replace hc : l.find? _ = _ := hc
    induction h with
    | nil => cases hc
    | @cons a b l' l hab _ ih =>
      have ha := hname a List.mem_cons_self b List.mem_cons_self hab
      by_cases hb : name b = q
      · rw [List.find?_cons_of_pos (by simpa using hb)] at hc
        cases hc
        refine ⟨a, List.find?_cons_of_pos ?_, hab⟩
        simpa [hb] using ha
      · have hab' : ¬ name' a = rename q := by
          rw [ha]
          exact fun h => hb (hinj b List.mem_cons_self h)
        rw [List.find?_cons_of_neg (by simpa using hb)] at hc
        obtain ⟨c', hc', hR⟩ := ih (fun c' h' c h => hname c' (List.mem_cons_of_mem _ h') c
          (List.mem_cons_of_mem _ h)) (fun c h => hinj c (List.mem_cons_of_mem _ h)) hc
        refine ⟨c', ?_, hR⟩
        exact (List.find?_cons_of_neg (by simpa using hab')).trans hc'
  | false =>
    obtain ⟨c', hc', hR⟩ := exists_of_forall₂_right h hc.1
    refine ⟨c', ⟨hc', ?_⟩, hR⟩
    rw [hname c' hc' c hc.1 hR, hc.2]

/-- Nodes that are picked from corresponding lists correspond. -/
theorem of_forall₂ {R : NodeId → NodeId → Prop} (rename : QName → QName) (h : List.Forall₂ R l' l)
    (hname : ∀ c' ∈ l', ∀ c ∈ l, R c' c → name' c' = rename (name c))
    (hc : Picked first name' l' q c) :
    ∃ o, Picked first name l (name o) o ∧ R c o ∧ q = rename (name o) := by
  cases first with
  | true =>
    replace hc : l'.find? _ = _ := hc
    induction h with
    | nil => cases hc
    | @cons a b l' l hab _ ih =>
      have ha := hname a List.mem_cons_self b List.mem_cons_self hab
      by_cases haq : name' a = q
      · rw [List.find?_cons_of_pos (by simpa using haq)] at hc
        cases hc
        exact ⟨b, List.find?_cons_of_pos (by simp), hab, haq.symm.trans ha⟩
      · rw [List.find?_cons_of_neg (by simpa using haq)] at hc
        obtain ⟨o, ho, hR, hq⟩ := ih (fun c' h' c h => hname c' (List.mem_cons_of_mem _ h') c
          (List.mem_cons_of_mem _ h)) hc
        have hb : ¬ name b = name o := fun hb => haq (by rw [ha, hb, ← hq])
        exact ⟨o, (List.find?_cons_of_neg (by simpa using hb)).trans ho, hR, hq⟩
  | false =>
    obtain ⟨o, ho, hR⟩ := exists_of_forall₂_right h.flip hc.1
    exact ⟨o, ⟨ho, rfl⟩, hR, hc.2.symm.trans (hname c hc.1 o ho hR)⟩

end Picked

/-- The child of a site that a name picks. -/
def Picks (d : Draft) (first : Bool) (s : Site) (q : QName) (c : NodeId) : Prop :=
  Picked first (fun c => (d.node c).name) (d.childrenOf s) q c

theorem picks_true : d.Picks true s q c ↔ d.findChild s q = some c := Iff.rfl

/-- An only child is picked by its name. -/
theorem picks_singleton (h : d.childrenOf s = [c]) {x : NodeId} :
    d.Picks first s q x ↔ x = c ∧ q = (d.node c).name := by
  unfold Picks
  rw [h]
  constructor
  · intro hx
    obtain rfl := List.mem_singleton.1 hx.mem
    exact ⟨rfl, hx.name_eq.symm⟩
  · rintro ⟨rfl, rfl⟩
    exact .singleton first (fun c => (d.node c).name) x

/-! ## Reaching a place -/

/-- The names of `p` lead from the site `s` to `x`, one picked child after the other. -/
inductive Reaches (d : Draft) (first : Bool) : Site → List QName → Site → Prop
  | nil (s : Site) : Reaches d first s [] s
  | cons {s x : Site} {q : QName} {c : NodeId} {p : List QName} (hc : d.Picks first s q c)
    (h : Reaches d first (.node c) p x) : Reaches d first s (q :: p) x

theorem reaches_true : d.Reaches true s p x ↔ d.descend s p = some x := by
  constructor
  · intro h
    induction h with
    | nil => rfl
    | cons hc _ ih => exact descend_cons.2 ⟨_, hc, ih⟩
  · intro h
    induction p generalizing s with
    | nil =>
      cases h
      exact .nil _
    | cons q p ih =>
      obtain ⟨c, hc, h⟩ := descend_cons.1 h
      exact .cons hc (ih h)

theorem Reaches.leads (h : d.Reaches first s p x) : d.Leads s p x := by
  induction h with
  | nil => exact .nil _
  | cons hc _ ih =>
    rw [← hc.name_eq]
    exact .cons hc.mem ih

theorem reaches_false : d.Reaches false s p x ↔ d.Leads s p x := by
  refine ⟨Reaches.leads, fun h => ?_⟩
  induction h with
  | nil => exact .nil _
  | cons hc _ ih => exact .cons ⟨hc, rfl⟩ ih

/-! ## Seeing nodes -/

/-- At the end of `p` there is a node with the keyword `k`; the first node on the way has the keyword
`top`. -/
inductive Shows (d : Draft) (first : Bool) : Site → List QName → String → String → Prop
  | here {s : Site} {q : QName} {c : NodeId} (hc : d.Picks first s q c) :
    Shows d first s [q] (d.node c).kind.keyword (d.node c).kind.keyword
  | there {s : Site} {q : QName} {c : NodeId} {p : List QName} {top k : String}
    (hc : d.Picks first s q c) (h : Shows d first (.node c) p top k) :
    Shows d first s (q :: p) (d.node c).kind.keyword k

variable {top k : String}

theorem Shows.exists_reaches (h : d.Shows first s p top k) :
    ∃ i, d.Reaches first s p (.node i) ∧ (d.node i).kind.keyword = k := by
  induction h with
  | here hc => exact ⟨_, .cons hc (.nil _), rfl⟩
  | there hc _ ih =>
    obtain ⟨i, hi, hk⟩ := ih
    exact ⟨i, .cons hc hi, hk⟩

theorem Reaches.shows {i : NodeId} (h : d.Reaches first s p (.node i)) (hp : p ≠ []) :
    ∃ top, d.Shows first s p top (d.node i).kind.keyword := by
  induction p generalizing s with
  | nil => exact absurd rfl hp
  | cons q p ih =>
    cases h with
    | cons hc h =>
      cases p with
      | nil =>
        cases h
        exact ⟨_, .here hc⟩
      | cons q' p =>
        obtain ⟨top, h⟩ := ih h (List.cons_ne_nil _ _)
        exact ⟨_, .there hc h⟩

theorem Shows.ne_nil (h : d.Shows first s p top k) : p ≠ [] := by
  cases h with
  | here => exact List.cons_ne_nil _ _
  | there => exact List.cons_ne_nil _ _

/-- What stands below a place stands below the way to it. -/
theorem Reaches.shows_append {top' : String} (h : d.Reaches first s p x)
    (h' : d.Shows first x p' top' k) : ∃ top, d.Shows first s (p ++ p') top k := by
  induction h with
  | nil => exact ⟨top', h'⟩
  | cons hc _ ih =>
    obtain ⟨top, h⟩ := ih h'
    exact ⟨_, .there hc h⟩

theorem not_shows_of_not_hasSite (hs : ¬ d.HasSite s) : ¬ d.Shows first s p top k := by
  have hempty : d.childrenOf s = [] := childrenOf_of_not_hasSite hs
  intro h
  cases h with
  | here hc =>
    have := hc.mem
    rw [hempty] at this
    cases this
  | there hc =>
    have := hc.mem
    rw [hempty] at this
    cases this

/-! ## Growing drafts -/

namespace Keeps

variable (hd : d.Sound) (hd₁ : d₁.Sound) (h : d.Keeps d₁)

include hd h in
theorem picks (hc : d.Picks first s q c) : d₁.Picks first s q c := by
  have hs := hasSite_of_mem_childrenOf hc.mem
  obtain ⟨more, hmore⟩ := h.children s hs
  unfold Picks
  rw [← hmore]
  refine Picked.append_left ((Picked.congr fun x hx => ?_).2 hc)
  exact h.name x (hd.child_lt hx)

include hd h in
theorem shows (hp : d.Shows first s p top k) : d₁.Shows first s p top k := by
  induction hp with
  | here hc =>
    rw [← h.kind _ (hd.child_lt hc.mem)]
    exact .here (h.picks hd hc)
  | there hc _ ih =>
    rw [← h.kind _ (hd.child_lt hc.mem)]
    exact .there (h.picks hd hc) ih

include hd hd₁ h

/-- An old child was picked before. -/
theorem picks_old (hc : d₁.Picks first s q c) (hlt : c.index < d.nodes.size) :
    d.Picks first s q c := by
  have hmem := h.mem_childrenOf hd hd₁ hc.mem hlt
  obtain ⟨more, hmore⟩ := h.children s (hasSite_of_mem_childrenOf hmem)
  unfold Picks at hc
  rw [← hmore] at hc
  exact (Picked.congr fun x hx => h.name x (hd.child_lt hx)).1 (hc.of_append_left hmem)

/-- No new way leads to an old place. -/
theorem reaches_old (hp : d₁.Reaches first s p x) (hx : d.HasSite x) : d.Reaches first s p x := by
  induction hp with
  | nil => exact .nil _
  | @cons s x q c p hc hp ih =>
    have hold : d.HasSite (.node c) := by
      have hunder := hp.leads.under hd₁
      exact hd.hasSite_above ((h.under_iff hd hx).1 hunder) hx
    exact .cons (h.picks_old hd hd₁ hc hold) (ih hx)

end Keeps

end Draft

end YangSchema
