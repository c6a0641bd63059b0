import YangSchema.Proofs.Draft.Freezable
import YangSchema.Proofs.Inference.Provenance

/-!
# Shorthand cases hold a node

A shorthand case is put around a node, and its copies hold a copy of the node (`Draft.Filled`).  Only
deviations empty it, and then they take it out of the tree.  As no shorthand case is an origin, freezing
never comes to an empty one (`Pruned.filled`).
-/

namespace YangSchema

open Draft Edit Relation

namespace Draft

variable {S : Stage} {d d₁ : Draft}

/-- No shorthand case is empty. -/
def Filled (d : Draft) : Prop := ∀ i, (d.node i).kind = .caseNode true → (d.node i).children ≠ []

/-! ## Strokes -/

theorem Filled.plant (h : d.Filled) (hplant : S.Plant d d₁) : d₁.Filled := by
  obtain ⟨style, s, b, -, -, -, himplanted⟩ := hplant
  intro i hi
  rcases Nat.lt_or_ge i.index d.nodes.size with hlt | hge
  · have hkind : (d.node i).kind = .caseNode true := by
      rw [himplanted.node i hlt] at hi
      exact hi
    -- the child that was there is still there
    obtain ⟨c, hc⟩ := List.exists_mem_of_ne_nil _ (h i hkind)
    have hin := himplanted.contains _ _
      (contains_site.2 (.inl ⟨c, hc, rfl⟩) : d.Contains _ (.site (.node i)))
    obtain ⟨c', hc', -⟩ | ⟨u, -, heq⟩ := contains_site.1 hin
    · exact List.ne_nil_of_mem hc'
    · cases heq
  rcases Nat.lt_or_ge i.index d₁.nodes.size with hlt₁ | hge₁
  · rcases himplanted.copied i hge hlt₁ with hwrap | ⟨o, -, hcopy⟩
    · exact hwrap.children
    · have ho := h o (CopyStyle.kind_eq_caseNode.1 (hcopy.kind.symm.trans hi))
      intro hnone
      have hchildren := hcopy.children
      rw [hnone] at hchildren
      exact ho (List.map_eq_nil_iff.1 hchildren.symm)
  · rw [node_of_size_le hge₁] at hi
    cases hi

theorem Filled.annotated (h : d.Filled) (ha : Annotated d d₁) : d₁.Filled := by
  intro i hi
  rw [ha.kind] at hi
  have hchildren : (d₁.node i).children = (d.node i).children := ha.childrenOf (.node i)
  rw [hchildren]
  exact h i hi

theorem Filled.strokes (h : d.Filled) (hd : d.Sound) (hstrokes : S.Strokes d d₁) : d₁.Filled :=
  hstrokes.rule hd plant annotated h

/-! ## Freezing -/

/-- Freezing comes to a shorthand case from above only. -/
theorem Reached.exists_parent (hd : d.Sound) (ht : d.Traced) {is : List ModuleId} {i : NodeId}
    (hi : d.Reached is (.site (.node i))) (hkind : (d.node i).kind = .caseNode true) :
    ∃ s, (d.node i).parent = some s := by
  obtain ⟨m, -, hmi⟩ := hi
  obtain heq | ⟨x, -, hx⟩ := ReflTransGen.cases_tail hmi
  · cases heq
  cases hx with
  | child hc => exact ⟨_, hd.parent_eq hc⟩
  | @origin j _ hj ho =>
    have hwritten : (d.node j).kind ≠ .caseNode true := fun hcase =>
      absurd (NodeKind.isShorthandCase_iff.2 hcase) (Bool.eq_false_iff.1 hj)
    exact absurd hkind ((ht j hwritten).written i ho)

/-- After deviations freezing comes to no empty shorthand case. -/
theorem Pruned.filled (hp : Pruned d d₁) (hd : d.Filled) (htiered : d.Tiered) (htraced : d₁.Traced)
    {is : List ModuleId} {i : NodeId} (hi : d₁.Reached is (.site (.node i)))
    (hshorthand : d₁.isShorthand (.node i) = true) : d₁.childrenOf (.node i) ≠ [] := by
  have hkind₁ : (d₁.node i).kind = .caseNode true := NodeKind.isShorthandCase_iff.1 hshorthand
  have hkind : (d.node i).kind = .caseNode true := (hp.node i).kind.symm.trans hkind₁
  obtain ⟨s, hs⟩ := Reached.exists_parent hp.sound htraced hi hkind₁
  intro hnone
  rcases hp.emptied htiered i hkind hnone with hempty | hout
  · exact hd i hkind hempty
  · rw [hs] at hout
    cases hout

end Draft

end YangSchema
