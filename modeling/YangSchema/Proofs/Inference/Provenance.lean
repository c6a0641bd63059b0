import YangSchema.Proofs.Declaration.Pristine
import YangSchema.Proofs.Inference.Pruning
import YangSchema.Proofs.Inference.Strokes

/-!
# Where the nodes of a draft come from

A node of a draft is marked as a copy exactly if it has an origin, and that it does resemble
(`Draft.Traced`).  Shorthand cases are left out: what they say they only say in the end, after the node
that they hold.  No stroke, and so no run, spoils this, and neither do deviations.
-/

namespace YangSchema

open Draft Edit Relation

namespace NodeFacts

/-- Copied in by a uses or merged in by an augmentation. -/
def isCopy (f : NodeFacts) : Bool := f.byUses || f.augmenting

theorem isCopy_iff {f : NodeFacts} : f.isCopy = true ↔ f.byUses = true ∨ f.augmenting = true := by
  unfold isCopy
  rw [Bool.or_eq_true]

/-- What a copy says and what its origin says: the same sort of node with the same local name, and no
mark of the origin is lost. -/
structure Recalls (copy origin : NodeFacts) : Prop where
  keyword : origin.kind.keyword = copy.kind.keyword
  localName : origin.name.localName = copy.name.localName
  byUses : origin.byUses = true → copy.byUses = true
  augmenting : origin.augmenting = true → copy.augmenting = true

end NodeFacts

@[simp] theorem CopyStyle.localName_name (style : CopyStyle) (q : QName) :
    (style.name q).localName = q.localName := by
  unfold name
  split <;> rfl

/-- The records agree on all that tells where a node comes from. -/
structure NodeDraft.SameRoots (r r' : NodeDraft) : Prop where
  kind : r'.kind = r.kind
  name : r'.name = r.name
  byUses : r'.facts.byUses = r.facts.byUses
  augmenting : r'.facts.augmenting = r.facts.augmenting
  origin : r'.origin = r.origin

namespace Draft

variable {S : Stage} {d d₁ : Draft}

/-- The node `i` is a copy of its origin, or it is no copy at all. -/
structure TracedAt (d : Draft) (i : NodeId) : Prop where
  origin : (d.node i).origin.isSome = (d.node i).facts.isCopy
  lt : ∀ o, (d.node i).origin = some o → o.index < d.nodes.size
  written : ∀ o, (d.node i).origin = some o → (d.node o).kind ≠ .caseNode true
  recalls : ∀ o, (d.node i).origin = some o → (d.node i).facts.Recalls (d.node o).facts

/-- All nodes but shorthand cases are copies of their origins. -/
def Traced (d : Draft) : Prop := ∀ i, (d.node i).kind ≠ .caseNode true → d.TracedAt i

theorem Pristine.traced (h : d.Pristine) : d.Traced := by
  intro i _
  have hr := h.nodes i
  have hno : ∀ o, (d.node i).origin ≠ some o := fun o ho => by rw [hr.origin] at ho; cases ho
  refine ⟨?_, fun o ho => absurd ho (hno o), fun o ho => absurd ho (hno o),
    fun o ho => absurd ho (hno o)⟩
  unfold NodeFacts.isCopy
  rw [hr.origin, hr.byUses, hr.augmenting]
  rfl

/-- A node stays traced when it and its origin keep their roots. -/
theorem TracedAt.of_same {i : NodeId} (h : d.TracedAt i) (hsize : d.nodes.size ≤ d₁.nodes.size)
    (hi : (d.node i).SameRoots (d₁.node i))
    (ho : ∀ o, (d.node i).origin = some o → (d.node o).SameRoots (d₁.node o)) : d₁.TracedAt i where
  origin := by
    unfold NodeFacts.isCopy
    rw [hi.origin, hi.byUses, hi.augmenting]
    exact h.origin
  lt o hio := Nat.lt_of_lt_of_le (h.lt o (hi.origin ▸ hio)) hsize
  written o hio := by
    have hio' := hi.origin ▸ hio
    rw [(ho o hio').kind]
    exact h.written o hio'
  recalls o hio := by
    have hio' := hi.origin ▸ hio
    obtain ⟨hkind, hname, huses, haugmenting⟩ := h.recalls o hio'
    have hs := ho o hio'
    refine ⟨?_, ?_, ?_, ?_⟩
    · exact (congrArg NodeKind.keyword hs.kind).trans
        (hkind.trans (congrArg NodeKind.keyword hi.kind).symm)
    · exact (congrArg QName.localName hs.name).trans
        (hname.trans (congrArg QName.localName hi.name).symm)
    · rw [hs.byUses, hi.byUses]
      exact huses
    · rw [hs.augmenting, hi.augmenting]
      exact haugmenting

/-- New nodes may be added that are traced, and what was there keeps its roots. -/
theorem Traced.step (h : d.Traced) (hsize : d.nodes.size ≤ d₁.nodes.size)
    (hold : ∀ i, i.index < d.nodes.size → (d.node i).SameRoots (d₁.node i))
    (hnew : ∀ i, d.nodes.size ≤ i.index → i.index < d₁.nodes.size →
      (d₁.node i).kind ≠ .caseNode true → d₁.TracedAt i) : d₁.Traced := by
  intro i hi
  rcases Nat.lt_or_ge i.index d.nodes.size with hlt | hge
  · have hs := hold i hlt
    have ht := h i (hs.kind ▸ hi)
    exact ht.of_same hsize hs fun o ho => hold o (ht.lt o ho)
  rcases Nat.lt_or_ge i.index d₁.nodes.size with hlt₁ | hge₁
  · exact hnew i hge hlt₁ hi
  · have hno : ∀ o, (d₁.node i).origin ≠ some o := fun o ho => by
      rw [node_of_size_le hge₁] at ho
      cases ho
    refine ⟨?_, fun o ho => absurd ho (hno o), fun o ho => absurd ho (hno o),
      fun o ho => absurd ho (hno o)⟩
    rw [node_of_size_le hge₁]
    rfl

/-! ## Strokes -/

/-- A copy that is marked is traced. -/
theorem tracedAt_of_copyOf {style : CopyStyle} {o i : NodeId}
    (hstyle : style.byUses = true ∨ style.augmenting = true) (hcopy : CopyOf style d d₁ o i)
    (ho : (d.node o).SameRoots (d₁.node o)) (hlt : o.index < d₁.nodes.size)
    (hkind : (d₁.node i).kind ≠ .caseNode true) : d₁.TracedAt i := by
  have horigin : (d₁.node i).origin = some o := hcopy.origin
  have hbyUses : (d₁.node i).facts.byUses = ((d.node o).facts.byUses || style.byUses) := by
    rw [hcopy.node]
    rfl
  have haugmenting : (d₁.node i).facts.augmenting =
      ((d.node o).facts.augmenting || style.augmenting) := by
    rw [hcopy.node]
    rfl
  refine ⟨?_, fun o' ho' => ?_, fun o' ho' => ?_, fun o' ho' => ?_⟩
  · rw [horigin]
    refine (NodeFacts.isCopy_iff.2 ?_).symm
    rw [hbyUses, haugmenting]
    exact hstyle.imp (fun h => by rw [h, Bool.or_true]) fun h => by rw [h, Bool.or_true]
  · cases horigin.symm.trans ho'
    exact hlt
  · cases horigin.symm.trans ho'
    intro hcase
    rw [ho.kind] at hcase
    exact hkind (hcopy.kind.trans (CopyStyle.kind_eq_caseNode.2 hcase))
  · cases horigin.symm.trans ho'
    refine ⟨?_, ?_, fun h => ?_, fun h => ?_⟩
    · exact ((congrArg NodeKind.keyword hcopy.kind).trans
        ((style.keyword_kind _).trans (congrArg NodeKind.keyword ho.kind.symm))).symm
    · exact ((congrArg QName.localName hcopy.name).trans
        ((style.localName_name _).trans (congrArg QName.localName ho.name.symm))).symm
    · rw [hbyUses, ← ho.byUses, h, Bool.true_or]
    · rw [haugmenting, ← ho.augmenting, h, Bool.true_or]

theorem Traced.plant (h : d.Traced) (hplant : S.Plant d d₁) : d₁.Traced := by
  obtain ⟨style, s, b, hd, hb, hs, himplanted⟩ := hplant
  have hold : ∀ i, i.index < d.nodes.size → (d.node i).SameRoots (d₁.node i) := fun i hi => by
    rw [himplanted.node i hi]
    exact ⟨rfl, rfl, rfl, rfl, rfl⟩
  refine h.step himplanted.nodes_le hold fun i hge hlt hkind => ?_
  rcases himplanted.copied i hge hlt with hwrap | ⟨o, ho, hcopy⟩
  · exact absurd hwrap.kind hkind
  · have holt : o.index < d.nodes.size := hd.lt_of_inside ho
    exact tracedAt_of_copyOf hb.marks hcopy (hold o holt)
      (Nat.lt_of_lt_of_le holt himplanted.nodes_le) hkind

/-- Nodes that keep their roots stay traced. -/
theorem Traced.of_same (h : d.Traced) (hsize : d₁.nodes.size = d.nodes.size)
    (hsame : ∀ i, (d.node i).SameRoots (d₁.node i)) : d₁.Traced :=
  h.step (Nat.le_of_eq hsize.symm) (fun i _ => hsame i) fun _ hge hlt =>
    absurd (hsize ▸ hlt) (Nat.not_lt.2 hge)

theorem Traced.annotated (h : d.Traced) (ha : Annotated d d₁) : d₁.Traced :=
  h.of_same ha.nodes_size fun i => ⟨ha.kind i, ha.name i, ha.byUses i, ha.augmenting i, ha.origin i⟩

theorem Traced.strokes (h : d.Traced) (hd : d.Sound) (hstrokes : S.Strokes d d₁) : d₁.Traced :=
  hstrokes.rule hd plant annotated h

/-! ## Deviations -/

theorem Traced.pruned (h : d.Traced) (hp : Pruned d d₁) : d₁.Traced := by
  refine h.of_same hp.nodes_size fun i => ?_
  rw [(hp.node i).record]
  exact ⟨rfl, rfl, rfl, rfl, rfl⟩

end Draft

end YangSchema
