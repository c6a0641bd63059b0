import YangSchema.Proofs.Declaration.Module
import YangSchema.Proofs.Inference.Addressing

/-!
# The order of merges

An augmentation that is put off holds back those of its target behind it.  So whatever else happens in
a run, the augmentations of one target are merged in the order in which they wait
(`Run.filter_merges`).  Of the augmentations that lead from the schema root a node takes note only when
they are merged into it, and copies take over none of these notes: in the end a target has noted just
its own augmentations, in this order (`Run.topsAt`).
-/

namespace YangSchema

open Draft Edit Relation

/-! ## What a run merges -/

/-- The augmentation that the move merges. -/
def Move.merged? : Move → Option AugmentTask
  | .expand _ => none
  | .merge t => some t

/-- The augmentations that are merged, one after the other. -/
def merges (ms : List Move) : List AugmentTask := ms.filterMap Move.merged?

theorem merges_cons (m : Move) (ms : List Move) : merges (m :: ms) = m.merged?.toList ++ merges ms := by
  unfold merges
  cases h : m.merged? with
  | none => rw [List.filterMap_cons_none h]; rfl
  | some t => rw [List.filterMap_cons_some h]; rfl

variable {S S' : Stage} {m : Move} {ms : List Move} {p : SchemaPath} {t : AugmentTask}

theorem Step.filter_merges (h : Step S m S') (p : SchemaPath) :
    m.merged?.toList.filter (·.target == p) ++ S'.augments.filter (·.target == p) =
      S.augments.filter (·.target == p) := by
  cases h with
  | expand h => rfl
  | @merge uses pre post d d' t hfirst hwait h =>
    show [t].filter (·.target == p) ++ (pre ++ post).filter (·.target == p) =
      (pre ++ ([t] ++ post)).filter (·.target == p)
    simp only [List.filter_append]
    by_cases hp : t.target = p
    · -- nothing of this target stands before the task
      have hpre : pre.filter (·.target == p) = [] :=
        List.filter_eq_nil_iff.2 fun u hu heq => hfirst u hu ((beq_iff_eq.1 heq).trans hp.symm)
      rw [hpre, List.nil_append, List.nil_append]
    · have hnone : [t].filter (·.target == p) = [] :=
        List.filter_eq_nil_iff.2 fun u hu heq => hp (List.mem_singleton.1 hu ▸ beq_iff_eq.1 heq)
      rw [hnone, List.nil_append, List.nil_append]

/-- What is merged into one target and what is left for it is, in this order, what was there. -/
theorem Run.filter_merges (h : Run S ms S') (p : SchemaPath) :
    (merges ms).filter (·.target == p) ++ S'.augments.filter (·.target == p) =
      S.augments.filter (·.target == p) := by
  induction h with
  | nil => rfl
  | cons hstep _ ih =>
    rw [merges_cons, List.filter_append, List.append_assoc, ih]
    exact hstep.filter_merges p

/-- What is merged and what is left is what was there. -/
theorem Run.perm_merges (h : Run S ms S') : S.augments.Perm (merges ms ++ S'.augments) := by
  induction h with
  | nil => exact .refl _
  | cons hstep _ ih =>
    rw [merges_cons, List.append_assoc]
    refine List.Perm.trans ?_ (ih.append_left _)
    cases hstep with
    | expand h => exact .refl _
    | merge => exact List.perm_middle

/-! ## Notes of augmentations -/

namespace Draft

variable {d₀ d d₁ : Draft} {i n : NodeId}

/-- The augmentations noted at the node that lead from the schema root. -/
def topsAt (d₀ d : Draft) (i : NodeId) : List AugmentId :=
  (d.node i).augmentations.filter fun a => (d₀.augment a).facts.target.absolute

theorem topsAt_of_size_le (h : d.nodes.size ≤ i.index) : d₀.topsAt d i = [] := by
  unfold topsAt
  rw [node_of_size_le h]
  rfl

theorem topsAt_mapNode {f : NodeDraft → NodeDraft} (hf : ∀ r, (f r).augmentations = r.augmentations)
    (n i : NodeId) : d₀.topsAt (d.mapNode n f) i = d₀.topsAt d i := by
  unfold topsAt
  rw [node_mapNode]
  split
  · rw [hf]
  · rfl

theorem topsAt_noteMerged (a : AugmentId) (unknown : List UnknownStatement) (hn : n.index < d.nodes.size) :
    d₀.topsAt (d.mapNode n (noteMerged a unknown)) i = d₀.topsAt d i ++
      if n = i ∧ (d₀.augment a).facts.target.absolute = true then [a] else [] := by
  unfold topsAt
  rw [node_mapNode]
  by_cases hni : n = i
  · subst hni
    rw [if_pos ⟨rfl, hn⟩]
    show ((d.node n).augmentations ++ [a]).filter _ = _
    rw [List.filter_append, List.filter_singleton]
    cases (d₀.augment a).facts.target.absolute with
    | true => rw [if_pos ⟨rfl, rfl⟩, cond_true]
    | false => rw [if_neg (by simp), cond_false]
  · rw [if_neg fun h => hni h.1, if_neg fun h => hni h.1, List.append_nil]

/-- No node in a body has noted an augmentation that leads from the schema root. -/
def Bare (d₀ d : Draft) : Prop := ∀ i, d.InBody (.node i) → d₀.topsAt d i = []

namespace Bare

theorem mapNode (h : d₀.Bare d) (n : NodeId) {f : NodeDraft → NodeDraft}
    (hparent : ∀ r, (f r).parent = r.parent)
    (htops : ∀ i, d₀.topsAt (d.mapNode n f) i = d₀.topsAt d i) : d₀.Bare (d.mapNode n f) := by
  intro i hi
  rw [htops]
  refine h i (hi.of_parent fun j _ => ?_)
  rw [node_mapNode]
  split
  · exact (hparent _).symm
  · rfl

/-- Copies come from bodies, and bring no such note. -/
theorem plant (h : d₀.Bare d) (hplant : S.Plant d d₁) :
    d₀.Bare d₁ ∧ ∀ i, d₀.topsAt d₁ i = d₀.topsAt d i := by
  obtain ⟨style, s, b, hd, hb, hs, himplanted⟩ := hplant
  have htops : ∀ i, d₀.topsAt d₁ i = d₀.topsAt d i := by
    intro i
    rcases Nat.lt_or_ge i.index d.nodes.size with hlt | hge
    · unfold topsAt
      rw [himplanted.node i hlt]
    rw [topsAt_of_size_le hge]
    rcases Nat.lt_or_ge i.index d₁.nodes.size with hlt₁ | hge₁
    · rcases himplanted.copied i hge hlt₁ with hwrap | ⟨o, ho, hcopy⟩
      · unfold topsAt
        rw [hwrap.augmentations]
        rfl
      · have hsame : (d₁.node i).augmentations = (d.node o).augmentations := by
          rw [hcopy.node]
          rfl
        unfold topsAt
        rw [hsame]
        exact h o (inBody_of_inside hd ho _ rfl)
    · exact topsAt_of_size_le hge₁
  refine ⟨fun i hi => ?_, htops⟩
  rw [htops]
  rcases Nat.lt_or_ge i.index d.nodes.size with hlt | hge
  · obtain ⟨b', hb'⟩ := hi
    refine h i ⟨b', (hd.under_iff_of_parent (fun j hj => ?_) (x := .node i) hlt).1 hb'⟩
    rw [himplanted.node j hj]
  · exact topsAt_of_size_le hge

theorem plants (h : d₀.Bare d) (hplants : S.Plants d d₁) :
    d₀.Bare d₁ ∧ ∀ i, d₀.topsAt d₁ i = d₀.topsAt d i := by
  induction hplants with
  | refl => exact ⟨h, fun _ => rfl⟩
  | tail _ hplant ih =>
    obtain ⟨hbare, htops⟩ := ih.1.plant hplant
    exact ⟨hbare, fun i => (htops i).trans (ih.2 i)⟩

/-- As long as only uses are expanded, no such note is taken. -/
theorem strokes (hS : S.augments = []) (hstands : ∀ t ∈ S.uses, t.Stands S.draft)
    (h : S.draft.Bare d) (hstrokes : S.Strokes d d₁) :
    S.draft.Bare d₁ ∧ ∀ i, S.draft.topsAt d₁ i = S.draft.topsAt d i := by
  induction hstrokes with
  | refl => exact ⟨h, fun _ => rfl⟩
  | @tail d₁ d₂ _ hstroke ih =>
    obtain ⟨hbare, hsame⟩ := ih
    suffices H : S.draft.Bare d₂ ∧ ∀ i, S.draft.topsAt d₂ i = S.draft.topsAt d₁ i from
      ⟨H.1, fun i => (H.2 i).trans (hsame i)⟩
    cases hstroke with
    | copy hd hb hs himplanted => exact hbare.plant ⟨_, _, _, hd, hb, hs, himplanted⟩
    | refine n r =>
      have htops : ∀ i, S.draft.topsAt (d₁.mapNode n r.apply) i = S.draft.topsAt d₁ i :=
        topsAt_mapNode (f := r.apply) (fun _ => rfl) n
      exact ⟨hbare.mapNode n (fun _ => rfl) htops, htops⟩
    | @note style n a _ hd hb unknown =>
      have hrel : (S.draft.augment a).facts.target.absolute = false := by
        rcases hb.augment_cases with ⟨t, ht, ha⟩ | ⟨t, ht, -⟩
        · -- the augmentations inside a uses lead from its place
          exact Bool.eq_false_iff.2 fun habs => (hstands t ht).relative a ha _ habs rfl
        · rw [hS] at ht
          cases ht
      have htops : ∀ i, S.draft.topsAt (d₁.mapNode n (noteMerged a unknown)) i = S.draft.topsAt d₁ i := by
        intro i
        rcases Nat.lt_or_ge n.index d₁.nodes.size with hlt | hge
        · rw [topsAt_noteMerged a unknown hlt, if_neg (by rw [hrel]; simp), List.append_nil]
        · unfold topsAt
          rw [node_mapNode, if_neg]
          rintro ⟨rfl, hlt⟩
          exact Nat.not_lt.2 hge hlt
      exact ⟨hbare.mapNode n (fun _ => rfl) htops, htops⟩
    | mark u p => exact ⟨fun i hi => hbare i (hi.of_parent fun _ _ => rfl), fun _ => rfl⟩

end Bare

/-- The augmentations that are noted were declared. -/
def NotesDeclared (d₀ d : Draft) : Prop :=
  ∀ i, ∀ a ∈ (d.node i).augmentations, a.index < d₀.augments.size

theorem Pristine.notesDeclared (h : d.Pristine) : d₀.NotesDeclared d := by
  intro i a ha
  rw [(h.nodes i).augmentations] at ha
  cases ha

theorem NotesDeclared.mapNode (h : d₀.NotesDeclared d) (n : NodeId) {f : NodeDraft → NodeDraft}
    (hf : ∀ r, ∀ a ∈ (f r).augmentations, a ∈ r.augmentations ∨ a.index < d₀.augments.size) :
    d₀.NotesDeclared (d.mapNode n f) := by
  intro i a ha
  rw [node_mapNode] at ha
  split at ha
  · exact (hf _ a ha).elim (h i a) id
  · exact h i a ha

theorem NotesDeclared.stroke (h : S.draft.NotesDeclared d) (hS : S.draft.Sound)
    (hdeclared : ∀ t ∈ S.augments, t.augment.index < S.draft.augments.size)
    (hstroke : S.Stroke d d₁) : S.draft.NotesDeclared d₁ := by
  cases hstroke with
  | copy hd hb hs himplanted =>
    intro i a ha
    rcases Nat.lt_or_ge i.index d.nodes.size with hlt | hge
    · rw [himplanted.node i hlt] at ha
      exact h i a ha
    rcases Nat.lt_or_ge i.index d₁.nodes.size with hlt₁ | hge₁
    · rcases himplanted.copied i hge hlt₁ with hwrap | ⟨o, -, hcopy⟩
      · rw [hwrap.augmentations] at ha
        cases ha
      · rw [hcopy.node] at ha
        exact h o a ha
    · rw [node_of_size_le hge₁] at ha
      cases ha
  | refine n r => exact h.mapNode (f := r.apply) n fun _ _ ha => .inl ha
  | @note style n a _ hd hb unknown =>
    refine h.mapNode n fun r a' ha' => ?_
    rcases List.mem_append.1 ha' with ha' | ha'
    · exact .inl ha'
    · rw [List.mem_singleton.1 ha']
      rcases hb.augment_cases with ⟨t, -, ha⟩ | ⟨t, ht, rfl⟩
      · exact .inr (hS.augment_lt t.uses a ha)
      · exact .inr (hdeclared t ht)
  | mark u p => exact h

theorem NotesDeclared.strokes (h : S.draft.NotesDeclared d) (hS : S.draft.Sound)
    (hdeclared : ∀ t ∈ S.augments, t.augment.index < S.draft.augments.size)
    (hstrokes : S.Strokes d d₁) : S.draft.NotesDeclared d₁ := by
  induction hstrokes with
  | refl => exact h
  | tail _ hstroke ih => exact ih.stroke hS hdeclared hstroke

/-! ## What merges leave noted -/

theorem Follows.findDataNode (h : d₀.Follows d) (h₁ : d₀.Follows d₁) (hk : d.Keeps d₁)
    (hn : d.findDataNode p = some n) : d₁.findDataNode p = some n := by
  obtain ⟨q, m, hq, hm, hdesc⟩ := findDataNode_eq_some.1 hn
  obtain ⟨hne, hdesc⟩ := findDescendant_eq_some.1 hdesc
  refine findDataNode_eq_some.2 ⟨q, m, hq, ?_, findDescendant_eq_some.2 ⟨hne, hk.descend h.sound hdesc⟩⟩
  rw [h₁.moduleOf?, ← h.moduleOf?]
  exact hm

/-- Different paths from the schema root find different nodes. -/
theorem Sound.findDataNode_inj (hd : d.Sound) {p' : SchemaPath} (hp : p.absolute = true)
    (hp' : p'.absolute = true) (h : d.findDataNode p = some n) (h' : d.findDataNode p' = some n) :
    p = p' := by
  obtain ⟨q, m, -, -, hdesc⟩ := findDataNode_eq_some.1 h
  obtain ⟨q', m', -, -, hdesc'⟩ := findDataNode_eq_some.1 h'
  have hsteps := (Leads.of_descend (findDescendant_eq_some.1 hdesc).2).path_unique_of_module hd
    (.of_descend (findDescendant_eq_some.1 hdesc').2)
  cases p
  cases p'
  cases hp
  cases hp'
  exact congrArg (SchemaPath.mk true) hsteps

/-- The tasks were merged, each into the node that its target finds, and these took note of them. -/
structure Notes (d₀ d : Draft) (notes : List (AugmentTask × NodeId)) : Prop where
  found : ∀ x ∈ notes, d.findDataNode x.1.target = some x.2
  tops : ∀ i, d₀.topsAt d i = (notes.filter (·.2 == i)).map (·.1.augment)

theorem Pristine.notes (h : d.Pristine) : d.Notes d [] where
  found _ hx := by cases hx
  tops i := by
    unfold topsAt
    rw [(h.nodes i).augmentations]
    rfl

theorem Notes.bare {notes : List (AugmentTask × NodeId)} (h : d₀.Notes d notes) (hd : d.Sound) :
    d₀.Bare d := by
  rintro i ⟨b, hb⟩
  rw [h.tops, List.map_eq_nil_iff, List.filter_eq_nil_iff]
  intro x hx heq
  obtain rfl : x.2 = i := beq_iff_eq.1 heq
  exact (addresses_of_findDataNode (h.found x hx)).outsideBodies hd b hb

end Draft

theorem Step.notes {d₀ : Draft} (hS : S.From d₀) (hstands : ∀ t ∈ S.augments, t.Stands d₀)
    {notes : List (AugmentTask × NodeId)} (hnotes : d₀.Notes S.draft notes) (h : Step S m S') :
    ∃ more, d₀.Notes S'.draft (notes ++ more) ∧ more.map Prod.fst = m.merged?.toList := by
  obtain ⟨s, hch⟩ := h.changes hS.toReady
  have hS' := h.from hS
  have hfound : ∀ {p n}, S.draft.findDataNode p = some n → S'.draft.findDataNode p = some n :=
    fun hn => hS.follows.findDataNode hS'.follows hch.keeps hn
  have hbare := hnotes.bare hS.follows.sound
  cases h with
  | @expand pre post augments d d' t h =>
    -- nothing is noted that leads from the schema root
    have ht : t ∈ pre ++ t :: post := by simp
    have hstrokes : Stage.Strokes ⟨pre ++ t :: post, [], d₀⟩ d d' :=
      (UsesTask.ends_attempt_strokes ht hS.follows (hS.stands t ht) _).of_ok h
    obtain ⟨-, htops⟩ := Bare.strokes (S := ⟨pre ++ t :: post, [], d₀⟩) rfl hS.stands hbare hstrokes
    refine ⟨[], ⟨fun x hx => ?_, fun i => ?_⟩, rfl⟩
    · rw [List.append_nil] at hx
      exact hfound (hnotes.found x hx)
    · rw [List.append_nil]
      exact (htops i).trans (hnotes.tops i)
  | @merge uses pre post d d' t hfirst hwait h =>
    have ht : t ∈ pre ++ t :: post := by simp
    obtain ⟨n, d₁, unknown, hn, hstocked, rfl⟩ := (AugmentTask.ends_attempt_stocked
      (S := ⟨[], pre ++ t :: post, d₀⟩) ht hS.follows.sound).of_ok h rfl
    obtain ⟨-, htops⟩ := hbare.plants hstocked.plants
    refine ⟨[(t, n)], ⟨fun x hx => ?_, fun i => ?_⟩, rfl⟩
    · rcases List.mem_append.1 hx with hx | hx
      · exact hfound (hnotes.found x hx)
      · rw [List.mem_singleton.1 hx]
        exact hfound hn
    · obtain ⟨_, _, -, -, hdesc⟩ := findDataNode_eq_some.1 hn
      have hlt : n.index < d₁.nodes.size :=
        Nat.lt_of_lt_of_le (findDescendant_lt hS.follows.sound hdesc) hstocked.keeps.nodes_le
      have hst := hstands t ht
      rw [topsAt_noteMerged _ _ hlt, htops, hnotes.tops, List.filter_append, List.map_append,
        hst.target, hst.absolute]
      congr 1
      by_cases hni : n = i
      · simp [hni]
      · simp [hni]

theorem Run.notes {d₀ : Draft} (hS : S.From d₀) (hstands : ∀ t ∈ S.augments, t.Stands d₀)
    {notes : List (AugmentTask × NodeId)} (hnotes : d₀.Notes S.draft notes) (h : Run S ms S') :
    ∃ more, d₀.Notes S'.draft (notes ++ more) ∧ more.map Prod.fst = merges ms := by
  induction h generalizing notes with
  | nil => exact ⟨[], by rw [List.append_nil]; exact hnotes, rfl⟩
  | cons hstep _ ih =>
    obtain ⟨more₁, hnotes₁, hmore₁⟩ := hstep.notes hS hstands hnotes
    obtain ⟨more₂, hnotes₂, hmore₂⟩ := ih (hstep.from hS)
      (fun t ht => hstands t (hstep.augments_subset ht)) hnotes₁
    refine ⟨more₁ ++ more₂, by rw [← List.append_assoc]; exact hnotes₂, ?_⟩
    rw [List.map_append, hmore₁, hmore₂, merges_cons]

/-- In the end every augmentation has found its target, and of those that lead from the schema root a
target has noted just its own, in the order in which they waited; other nodes have noted none. -/
theorem Run.topsAt {d : Draft} (hS : S.From S.draft) (hpristine : S.draft.Pristine)
    (hstands : ∀ t ∈ S.augments, t.Stands S.draft) (h : Run S ms ⟨[], [], d⟩) :
    (∀ t ∈ S.augments, ∃ n, d.findDataNode t.target = some n ∧ S.draft.topsAt d n =
      (S.augments.filter (·.target == t.target)).map AugmentTask.augment) ∧
    ∀ i, S.draft.topsAt d i = [] ∨ ∃ t ∈ S.augments, d.findDataNode t.target = some i := by
  obtain ⟨notes, ⟨hfound, htops⟩, hmerged⟩ := h.notes hS hstands hpristine.notes
  rw [List.nil_append] at hfound htops
  have hd : d.Sound := (h.from hS).follows.sound
  have hqueue : ∀ p, (merges ms).filter (·.target == p) = S.augments.filter (·.target == p) := by
    intro p
    have := h.filter_merges p
    rwa [List.filter_nil, List.append_nil] at this
  have hmem : ∀ {t}, t ∈ S.augments ↔ ∃ n, (t, n) ∈ notes := by
    intro t
    have hmerges : t ∈ merges ms ↔ t ∈ S.augments := by
      have := congrArg (t ∈ ·) (hqueue t.target)
      simpa using this
    rw [← hmerges, ← hmerged, List.mem_map]
    constructor
    · rintro ⟨⟨u, n⟩, hx, rfl⟩
      exact ⟨n, hx⟩
    · rintro ⟨n, hx⟩
      exact ⟨(t, n), hx, rfl⟩
  refine ⟨fun t ht => ?_, fun i => ?_⟩
  · obtain ⟨n, hn⟩ := hmem.1 ht
    refine ⟨n, hfound _ hn, ?_⟩
    -- the same node is the same target
    have hsame : notes.filter (·.2 == n) = notes.filter (·.1.target == t.target) := by
      refine List.filter_congr fun x hx => ?_
      rw [Bool.eq_iff_iff, beq_iff_eq, beq_iff_eq]
      constructor
      · intro hxn
        refine hd.findDataNode_inj ?_ (hstands t ht).absolute (hxn ▸ hfound x hx) (hfound _ hn)
        exact (hstands x.1 (hmem.2 ⟨x.2, hx⟩)).absolute
      · intro hxt
        have hx' := hfound x hx
        rw [hxt, hfound _ hn] at hx'
        exact (Option.some.inj hx').symm
    rw [htops, hsame, ← hqueue, ← hmerged, List.filter_map, List.map_map]
    rfl
  · rcases List.eq_nil_or_concat (notes.filter (·.2 == i)) with hnil | ⟨l, x, hl⟩
    · exact .inl (by rw [htops, hnil]; rfl)
    · have hlast : x ∈ notes.filter (·.2 == i) := by
        rw [hl]
        simp
      obtain ⟨hx, hxi⟩ := List.mem_filter.1 hlast
      exact .inr ⟨x.1, hmem.2 ⟨x.2, hx⟩, beq_iff_eq.1 hxi ▸ hfound x hx⟩

end YangSchema
