import YangSchema.Proofs.Inference.Deviations

/-!
# What one change of a deviation does

Each of the changes `add`, `replace` and `delete` is about one field of the node that is deviated, the
one that the property names (`DeviateProperty.overlay`).  A change that is refused leaves the node, and
with it the whole draft, as it was.  A change that is made sets that field and no other
(`overlay_of_add` and its siblings).

The changes are told apart by when they are refused.  What was added can be deleted again, which gives
back the node there was, as adding is refused where the value is already there; for the same reason a
property is added only once, except for an unbounded `max-elements`, which is stored as no bound at all.
Replacing says all of the new value and can be repeated.
-/

namespace YangSchema

open Draft Edit

namespace DeviateProperty

variable {p : DeviateProperty} {n r : NodeDraft}

/-! ## The field of a property -/

/-- The node `n` with the field that the property names taken from `m`. -/
def overlay (p : DeviateProperty) (m n : NodeDraft) : NodeDraft :=
  match p with
  | config _ => { n with config := m.config }
  | mandatory _ => n.setConstraints { n.constraints with mandatory := m.constraints.mandatory }
  | minElements _ => n.setConstraints { n.constraints with minElements := m.constraints.minElements }
  | maxElements _ => n.setConstraints { n.constraints with maxElements := m.constraints.maxElements }
  | must _ => n.setConstraints { n.constraints with must := m.constraints.must }
  | units _ => n.setProperties { n.properties with units := m.properties.units }
  | defaultValue _ => n.setProperties { n.properties with defaults := m.properties.defaults }
  | unique _ => n.setProperties { n.properties with unique := m.properties.unique }
  | typeName _ => n.setProperties { n.properties with typeName := m.properties.typeName }

/-- Whether the property is one that `delete` can take away. -/
def isDeletable : DeviateProperty → Bool
  | must _ | unique _ | units _ | defaultValue _ => true
  | config _ | mandatory _ | minElements _ | maxElements _ | typeName _ => false

/-! ## Nothing but the field -/

theorem overlay_of_add (h : p.add n = .ok r) : r = p.overlay r n := by
  cases p with
  | typeName v => cases h
  | _ =>
    obtain ⟨-, rfl⟩ := ifAbsent_eq_ok.1 h
    rfl

theorem overlay_of_replace (h : p.replace n = .ok r) : r = p.overlay r n := by
  cases p with
  | must v | unique v => cases h
  | config v | maxElements v =>
    cases h
    rfl
  | _ =>
    obtain ⟨-, rfl⟩ := ifPresent_eq_ok.1 h
    rfl

theorem overlay_of_delete (h : p.delete n = .ok r) : r = p.overlay r n := by
  cases p with
  | defaultValue v | must v | unique v | units v =>
    obtain ⟨-, rfl⟩ := ifPresent_eq_ok.1 h
    rfl
  | _ => cases h

/-! ## Undoing and repeating -/

/-- Taking a value out of a list again that it was put at the end of. -/
theorem filter_append_of_contains_eq_false {l : List String} {v : String}
    (h : l.contains v = false) : (l ++ [v]).filter (· != v) = l := by
  rw [List.filter_append, List.filter_eq_self.2, List.filter_cons_of_neg (by simp), List.filter_nil,
    List.append_nil]
  intro w hw
  refine bne_iff_ne.2 fun heq => ?_
  subst heq
  rw [List.contains_eq_mem, decide_eq_false_iff_not] at h
  exact h hw

/-- A default that may be added is none that is there: a leaf-list is asked for the value, every other
node for being without one. -/
theorem contains_of_defaultTaken {v : String} (h : defaultTaken n v = false) :
    n.properties.defaults.contains v = false := by
  unfold defaultTaken at h
  split at h
  · exact h
  · rw [Bool.not_eq_false'] at h
    rw [List.isEmpty_iff.1 h]
    rfl

/-- What was just added is deleted without a trace. -/
theorem delete_of_add (hp : p.isDeletable) (h : p.add n = .ok r) : p.delete r = .ok n := by
  cases p with
  | must v =>
    obtain ⟨habsent, rfl⟩ := ifAbsent_eq_ok.1 h
    have hback := filter_append_of_contains_eq_false habsent
    refine ifPresent_eq_ok.2 ⟨by simp [NodeDraft.constraints, NodeDraft.setConstraints], ?_⟩
    show n = n.setConstraints
      { n.constraints with must := (n.constraints.must ++ [v]).filter (· != v) }
    rw [hback]
    rfl
  | unique v =>
    obtain ⟨habsent, rfl⟩ := ifAbsent_eq_ok.1 h
    have hback := filter_append_of_contains_eq_false habsent
    refine ifPresent_eq_ok.2 ⟨by simp [NodeDraft.properties, NodeDraft.setProperties], ?_⟩
    show n = n.setProperties
      { n.properties with unique := (n.properties.unique ++ [v]).filter (· != v) }
    rw [hback]
    rfl
  | defaultValue v =>
    obtain ⟨habsent, rfl⟩ := ifAbsent_eq_ok.1 h
    have hback := filter_append_of_contains_eq_false (contains_of_defaultTaken habsent)
    refine ifPresent_eq_ok.2 ⟨by simp [NodeDraft.properties, NodeDraft.setProperties], ?_⟩
    show n = n.setProperties
      { n.properties with defaults := (n.properties.defaults ++ [v]).filter (· != v) }
    rw [hback]
    rfl
  | units v =>
    obtain ⟨habsent, rfl⟩ := ifAbsent_eq_ok.1 h
    have hnone : n.properties.units = none :=
      Option.isNone_iff_eq_none.1 (Option.isSome_eq_false_iff.1 habsent)
    refine ifPresent_eq_ok.2 ⟨beq_self_eq_true _, ?_⟩
    show n = n.setProperties { n.properties with units := none }
    rw [← hnone]
    rfl
  | _ => cases hp

/-- What was just added is there already. -/
theorem add_of_add (hp : p ≠ maxElements none) (h : p.add n = .ok r) :
    p.add r = refused (.alreadyPresent p.render r.path.render) := by
  cases p with
  | typeName v => cases h
  | maxElements v =>
    obtain ⟨-, rfl⟩ := ifAbsent_eq_ok.1 h
    cases v with
    | none => exact absurd rfl hp
    | some v => rfl
  | must v =>
    obtain ⟨-, rfl⟩ := ifAbsent_eq_ok.1 h
    have hthere : (n.constraints.must ++ [v]).contains v = true := by simp
    exact if_pos hthere
  | unique v =>
    obtain ⟨-, rfl⟩ := ifAbsent_eq_ok.1 h
    have hthere : (n.properties.unique ++ [v]).contains v = true := by simp
    exact if_pos hthere
  | defaultValue v =>
    obtain ⟨-, rfl⟩ := ifAbsent_eq_ok.1 h
    refine if_pos ?_
    unfold defaultTaken
    split
    · simp [NodeDraft.properties, NodeDraft.setProperties]
    · simp [NodeDraft.properties, NodeDraft.setProperties]
  | _ =>
    obtain ⟨-, rfl⟩ := ifAbsent_eq_ok.1 h
    rfl

/-- Replacing twice is replacing once. -/
theorem replace_of_replace (h : p.replace n = .ok r) : p.replace r = .ok r := by
  cases p with
  | must v | unique v => cases h
  | config v | maxElements v =>
    cases h
    rfl
  | _ =>
    obtain ⟨-, rfl⟩ := ifPresent_eq_ok.1 h
    rfl

end DeviateProperty

/-! ## Changing the draft -/

namespace Draft

/-- A change is refused and nothing happens, or the changed node takes the place of the node. -/
theorem ends_alterNode_exactly (i : NodeId) (change : NodeDraft → Except Fault NodeDraft) (d : Draft) :
    Ends (alterNode i change) d
      (fun _ d' => ∃ r, change (d.node i) = .ok r ∧ d' = d.mapNode i fun _ => r)
      fun _ d' => d' = d := by
  unfold alterNode
  rw [ends_bind, ends_get, ends_bind]
  cases d.nodes.isFrozen i.index with
  | true => exact rfl
  | false =>
    rw [ends_requireOpen, ends_bind]
    show Ends (liftM (change (d.node i))) d _ _
    rw [ends_liftM]
    cases hr : change (d.node i) with
    | error f => exact rfl
    | ok r => exact ⟨r, rfl, rfl⟩

end Draft

/-! ## Main result -/

open DeviateProperty in
/-- **One change of a deviation is made as a whole or not at all, and the changes undo one another.**
Whichever change of a property is tried, it leaves the draft alone where it fails, and otherwise sets
the field of the property at the node and nothing else.  Deleting undoes adding, nothing but an unbounded
`max-elements` is added twice, and replacing again changes nothing. -/
theorem deviate_edits (p : DeviateProperty) :
    (∀ change ∈ [p.add, p.replace, p.delete],
      (∀ n r, change n = .ok r → r = p.overlay r n) ∧
      ∀ d i,
        (∀ f d', (alterNode i change).perform d = (.error f, d') → d' = d) ∧
        ∀ u d', (alterNode i change).perform d = (.ok u, d') →
          ∃ r, change (d.node i) = .ok r ∧ d' = d.mapNode i (p.overlay r)) ∧
    (p.isDeletable → ∀ n r, p.add n = .ok r → p.delete r = .ok n) ∧
    (p ≠ maxElements none → ∀ n r, p.add n = .ok r →
      p.add r = refused (.alreadyPresent p.render r.path.render)) ∧
    ∀ n r, p.replace n = .ok r → p.replace r = .ok r := by
  refine ⟨fun change hmem => ?_, fun hp n r => delete_of_add hp, fun hp n r => add_of_add hp,
    fun n r => replace_of_replace⟩
  have hfield : ∀ n r, change n = .ok r → r = p.overlay r n := by
    intro n r h
    simp only [List.mem_cons, List.not_mem_nil, or_false] at hmem
    obtain rfl | rfl | rfl := hmem
    · exact overlay_of_add h
    · exact overlay_of_replace h
    · exact overlay_of_delete h
  refine ⟨hfield, fun d i => ?_⟩
  have hends := ends_alterNode_exactly i change d
  refine ⟨fun f d' => hends.of_error, fun u d' h => ?_⟩
  obtain ⟨r, hr, rfl⟩ := hends.of_ok h
  exact ⟨r, hr, mapNode_congr (hfield _ _ hr)⟩

/-- A leaf-list that states much, with two conditions on its values. -/
def portList : NodeDraft where
  facts := {
    kind := .leafList
    name := ⟨⟨"urn:m", none⟩, "port"⟩
    path := ⟨true, [⟨⟨"urn:m", none⟩, "port"⟩]⟩
    docs := { description := some "Open ports." }
    constraints := {
      minElements := some 1
      maxElements := some 8
      must := [". > 0", ". != 22"]
      condition := some "../enabled" }
    properties := { typeName := some "uint16", units := some "port", defaults := ["80", "443"] }
    byUses := true }
  config := some true
  parent := some (.module ⟨0⟩)

open DeviateProperty in
/-- A third `must` is added behind two and nothing else is touched; it is not added again, and it is deleted
without a trace. -/
theorem deviate_edits_must :
    ∃ r, (must ". < 1024").add portList = .ok r ∧
      r.constraints.must = [". > 0", ". != 22", ". < 1024"] ∧
      r = (must ". < 1024").overlay r portList ∧ (must ". < 1024").delete r = .ok portList ∧
      (must ". < 1024").add r =
        refused (.alreadyPresent (must ". < 1024").render r.path.render) := by
  obtain ⟨r, hr, hmust⟩ : ∃ r, (must ". < 1024").add portList = .ok r ∧
      r.constraints.must = [". > 0", ". != 22", ". < 1024"] :=
    ⟨_, ifAbsent_eq_ok.2 ⟨by decide, rfl⟩, rfl⟩
  obtain ⟨hchange, hdelete, hagain, -⟩ := deviate_edits (must ". < 1024")
  exact ⟨r, hr, hmust, (hchange _ List.mem_cons_self).1 _ _ hr, hdelete rfl _ _ hr,
    hagain (by decide) _ _ hr⟩

end YangSchema
