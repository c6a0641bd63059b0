import Mathlib.Data.List.Nodup
import Mathlib.Data.List.Perm.Subperm
import YangSchema.Inference.GroupingCycle
import YangSchema.Proofs.Search

/-!
# What the check for circular groupings shows

If the check passes, the groupings that use others can be put into an order in which every grouping
uses only groupings before it (`exists_order_of_checkGroupings`).  In particular no uses stands in
the grouping that it names.  If it fails, there is a circle of groupings that use one another
(`exists_circle_of_checkGroupings`).
-/

namespace YangSchema

/-! ## Users and used -/

theorem GroupingId.index_injective (g h : GroupingId) (heq : g.index = h.index) : g = h := by
  cases g
  cases h
  exact congrArg GroupingId.mk heq

variable {d : Draft} {edges : List GroupingEdge} {tasks : List UsesTask} {g u : GroupingId}

theorem mem_orderedBy_index {l : List GroupingId} : g ∈ orderedBy GroupingId.index l ↔ g ∈ l :=
  ⟨mem_of_mem_orderedBy, mem_orderedBy fun a _ b _ => GroupingId.index_injective a b⟩

theorem mem_usedBy : u ∈ usedBy edges g ↔ ⟨g, u⟩ ∈ edges := by
  unfold usedBy
  simp only [mem_orderedBy_index, List.mem_map, List.mem_filter, beq_iff_eq]
  constructor
  · rintro ⟨e, ⟨he, rfl⟩, rfl⟩
    exact he
  · exact fun h => ⟨⟨g, u⟩, ⟨h, rfl⟩, rfl⟩

/-- An edge leads from `g` to `u`. -/
def UsesGrouping (edges : List GroupingEdge) (g u : GroupingId) : Prop := ⟨g, u⟩ ∈ edges

/-- The grouping is at an end of an edge. -/
def MeetsEdge (edges : List GroupingEdge) (g : GroupingId) : Prop :=
  ∃ e ∈ edges, g = e.user ∨ g = e.used

/-! ## The search -/

/-- The fault for a circle of groupings. -/
def circularGroupings (d : Draft) (c : List GroupingId) : Fault :=
  ⟨.circularGrouping (c.map fun g => (d.grouping g).facts.name.localName), none⟩

theorem any_beq_eq_contains (l : List GroupingId) (g : GroupingId) :
    l.any (id · == id g) = l.contains g := by
  rw [List.contains_eq_any_beq]
  simp only [id, BEq.comm]

theorem visitGrouping_eq_search : visitGrouping d edges = search id (fun g => .ok (usedBy edges g))
    (circularGroupings d) fun g => .nestedInItself g.render := by
  funext fuel
  induction fuel with
  | zero =>
    funext trail done g
    unfold visitGrouping search
    rw [any_beq_eq_contains, any_beq_eq_contains]
    rfl
  | succ fuel ih =>
    funext trail done g
    unfold visitGrouping search
    rw [any_beq_eq_contains, any_beq_eq_contains]
    simp only [ih]
    rfl

theorem searchable_groupings (edges : List GroupingEdge) :
    Searchable id (fun g => .ok (usedBy edges g)) (UsesGrouping edges) (MeetsEdge edges) where
  targets g _ := ⟨usedBy edges g, rfl, fun _ => mem_usedBy⟩
  closed _ _ _ h := ⟨_, h, .inr rfl⟩
  key_inj _ _ _ _ h := h

theorem meetsEdge_of_mem_users (h : g ∈ orderedBy GroupingId.index (edges.map GroupingEdge.user)) :
    MeetsEdge edges g := by
  obtain ⟨e, he, rfl⟩ := List.mem_map.1 (mem_orderedBy_index.1 h)
  exact ⟨e, he, .inl rfl⟩

theorem checkGroupings_eq_search : checkGroupings d tasks =
    let edges := tasks.filterMap (·.edge? d)
    discard ((orderedBy GroupingId.index (edges.map GroupingEdge.user)).foldlM
      (search id (fun g => .ok (usedBy edges g)) (circularGroupings d)
        (fun g => .nestedInItself g.render) (2 * edges.length) []) []) := by
  unfold checkGroupings
  simp only [visitGrouping_eq_search]

/-- If the check passes, every grouping that uses others comes after them in some order. -/
theorem exists_order_of_checkGroupings (h : checkGroupings d tasks = .ok ()) :
    ∃ order, Sorted (UsesGrouping (tasks.filterMap (·.edge? d))) order ∧
      ∀ e ∈ tasks.filterMap (·.edge? d), e.user ∈ order := by
  rw [checkGroupings_eq_search] at h
  dsimp only at h
  generalize tasks.filterMap (·.edge? d) = edges at h ⊢
  have husers : ∀ g ∈ orderedBy GroupingId.index (edges.map GroupingEdge.user), MeetsEdge edges g :=
    fun g hg => meetsEdge_of_mem_users hg
  have hfold := (searchable_groupings edges).foldlM_finds (circularGroupings d)
    (fun g => .nestedInItself g.render) (2 * edges.length) husers
  generalize List.foldlM (m := Except Fault) _ _ _ = res at h hfold
  cases hfold with
  | @sorted order hsorted _ hmem _ =>
    exact ⟨order, hsorted, fun e he => hmem (mem_orderedBy_index.2 (List.mem_map.2 ⟨e, he, rfl⟩))⟩
  | circle => cases h
  | long => cases h

/-- There are at most two groupings for each edge. -/
theorem length_le_of_meetsEdge {l : List GroupingId} (hl : l.Nodup) (hmeets : ∀ g ∈ l, MeetsEdge edges g) :
    l.length ≤ 2 * edges.length := by
  have hsub : l ⊆ edges.map GroupingEdge.user ++ edges.map GroupingEdge.used := by
    intro g hg
    obtain ⟨e, he, rfl | rfl⟩ := hmeets g hg
    · exact List.mem_append_left _ (List.mem_map_of_mem he)
    · exact List.mem_append_right _ (List.mem_map_of_mem he)
  have hlength := (List.Nodup.subperm hl hsub).length_le
  simp only [List.length_append, List.length_map] at hlength
  omega

/-- If the check fails, some groupings use one another in a circle: no trail is longer than the ends
of the edges are many, so the search does not come to its end before. -/
theorem exists_circle_of_checkGroupings {f : Fault} (h : checkGroupings d tasks = .error f) :
    ∃ c, Circle (UsesGrouping (tasks.filterMap (·.edge? d))) c ∧ f = circularGroupings d c := by
  rw [checkGroupings_eq_search] at h
  dsimp only at h
  generalize tasks.filterMap (·.edge? d) = edges at h ⊢
  have husers : ∀ g ∈ orderedBy GroupingId.index (edges.map GroupingEdge.user), MeetsEdge edges g :=
    fun g hg => meetsEdge_of_mem_users hg
  rcases (searchable_groupings edges).sorted_or_circle (circularGroupings d)
      (fun g => .nestedInItself g.render) (fun _ => length_le_of_meetsEdge) husers with
    ⟨done, hdone, -⟩ | ⟨c, hc, hcircle⟩
  · rw [hdone] at h
    cases h
  · rw [hc] at h
    cases h
    exact ⟨c, hcircle, rfl⟩

/-- No uses stands in the grouping that it names. -/
theorem innermostGrouping_ne_of_checkGroupings (h : checkGroupings d tasks = .ok ()) {t : UsesTask}
    (ht : t ∈ tasks) (hg : t.resolve d = some g) : t.innermostGrouping ≠ some g := by
  intro hin
  obtain ⟨order, horder, husers⟩ := exists_order_of_checkGroupings h
  have hedge : (⟨g, g⟩ : GroupingEdge) ∈ tasks.filterMap (·.edge? d) := by
    refine List.mem_filterMap.2 ⟨t, ht, ?_⟩
    simp only [UsesTask.edge?, hin, hg, Option.bind_eq_bind, Option.bind_some, Option.pure_def]
  exact horder.not_transGen_self (husers _ hedge) (.single hedge)

/-! ## What the check decides -/

/-- Some task names `h` and stands in `g`, which is the last grouping among the bodies around it. -/
def Draft.GroupingUses (d : Draft) (tasks : List UsesTask) (g h : GroupingId) : Prop :=
  ∃ t ∈ tasks, (∃ outer inner, t.enclosing = outer ++ .grouping g :: inner ∧
    ∀ g', .grouping g' ∉ inner) ∧ t.resolve d = some h

theorem usesGrouping_edges :
    UsesGrouping (tasks.filterMap (·.edge? d)) = d.GroupingUses tasks := by
  funext g h
  simp only [UsesGrouping, Draft.GroupingUses, ← UsesTask.innermostGrouping_eq_some,
    List.mem_filterMap, UsesTask.edge?, Option.pure_def, Option.bind_eq_bind,
    Option.bind_eq_some_iff, Option.some.injEq, GroupingEdge.mk.injEq]
  refine propext ⟨?_, ?_⟩
  · rintro ⟨t, ht, g', hg, h', hh, rfl, rfl⟩
    exact ⟨t, ht, hg, hh⟩
  · rintro ⟨t, ht, hg, hh⟩
    exact ⟨t, ht, g, hg, h, hh, rfl, rfl⟩

/-- The check passes exactly if no grouping uses itself through others, and a fault of it names the
groupings of a circle one after another, where the first is the last. -/
theorem checkGroupings_exact (d : Draft) (tasks : List UsesTask) :
    (checkGroupings d tasks = .ok () ↔ ∀ g, ¬ Relation.TransGen (d.GroupingUses tasks) g g) ∧
      ∀ f, checkGroupings d tasks = .error f →
        ∃ c, Circle (d.GroupingUses tasks) c ∧ f = circularGroupings d c := by
  rw [← usesGrouping_edges]
  refine ⟨⟨fun hpass g hcircle => ?_, fun hacyclic => ?_⟩, fun f hf =>
    exists_circle_of_checkGroupings hf⟩
  · -- the order that the check found has no circle in it, and every user stands in it
    obtain ⟨order, hsorted, husers⟩ := exists_order_of_checkGroupings hpass
    obtain ⟨u, hedge, -⟩ := Relation.TransGen.head'_iff.1 hcircle
    exact hsorted.not_transGen_self (husers _ hedge) hcircle
  · cases hcheck : checkGroupings d tasks with
    | ok => rfl
    | error f =>
      obtain ⟨c, hc, -⟩ := exists_circle_of_checkGroupings hcheck
      obtain ⟨g, -, hg⟩ := hc.exists_transGen
      exact absurd hg (hacyclic g)

end YangSchema
