import YangSchema.Proofs.Draft.Entries
import YangSchema.Proofs.Draft.References

/-!
# Listing more groupings

`ListsMore s gs d d'` says of an edit, or of a whole declaration, that the site `s` lists the groupings
`gs` behind those that it listed, that every other site lists what it listed, and that what was there is
there under the same name.  Only `pushGrouping` lists anything; every other edit keeps all lists
(`KeepsLists`).  This needs nothing of the draft.
-/

namespace YangSchema

open Draft Edit

namespace Draft

variable {d d₁ d₂ d' : Draft} {s t : Site} {gs gs' : List GroupingId}

theorem KeepsNames.trans (h : d.KeepsNames d₁) (h' : d₁.KeepsNames d₂) : d.KeepsNames d₂ where
  nodes_le := h.nodes_le.trans h'.nodes_le
  groupings_le := h.groupings_le.trans h'.groupings_le
  uses_le := h.uses_le.trans h'.uses_le
  augments_le := h.augments_le.trans h'.augments_le
  node i hi := (h'.node i (hi.trans_le h.nodes_le)).trans (h.node i hi)
  grouping g hg := (h'.grouping g (hg.trans_le h.groupings_le)).trans (h.grouping g hg)
  uses u hu := (h'.uses u (hu.trans_le h.uses_le)).trans (h.uses u hu)
  augment a ha := (h'.augment a (ha.trans_le h.augments_le)).trans (h.augment a ha)

/-- From `d` to `d'` every site lists the groupings that it listed, and the names stay. -/
structure KeepsLists (d d' : Draft) : Prop where
  names : d.KeepsNames d'
  modules_le : d.modules.size ≤ d'.modules.size
  listed : ∀ t, d.HasSite t → d'.groupingsAt t = d.groupingsAt t

/-- From `d` to `d'` the site `s` lists `gs` more, behind what it listed; the other sites list what they
listed, and the names stay. -/
structure ListsMore (s : Site) (gs : List GroupingId) (d d' : Draft) : Prop where
  names : d.KeepsNames d'
  modules_le : d.modules.size ≤ d'.modules.size
  listed : ∀ t, d.HasSite t → d'.groupingsAt t = d.groupingsAt t ++ if t = s then gs else []

theorem KeepsLists.refl (d : Draft) : d.KeepsLists d := ⟨.refl d, Nat.le_refl _, fun _ _ => rfl⟩

theorem KeepsLists.listsMore (h : d.KeepsLists d') (s : Site) : ListsMore s [] d d' where
  names := h.names
  modules_le := h.modules_le
  listed t ht := by rw [h.listed t ht, ite_self, List.append_nil]

namespace ListsMore

theorem keepsLists (h : ListsMore s [] d d') : d.KeepsLists d' where
  names := h.names
  modules_le := h.modules_le
  listed t ht := by rw [h.listed t ht, ite_self, List.append_nil]

theorem hasSite (h : ListsMore s gs d d') (ht : d.HasSite t) : d'.HasSite t := by
  cases t with
  | module i => exact ht.trans_le h.modules_le
  | node i => exact ht.trans_le h.names.nodes_le
  | grouping i => exact ht.trans_le h.names.groupings_le
  | augment i => exact ht.trans_le h.names.augments_le

theorem at_self (h : ListsMore s gs d d') (hs : d.HasSite s) :
    d'.groupingsAt s = d.groupingsAt s ++ gs := by
  rw [h.listed s hs, if_pos rfl]

theorem at_other (h : ListsMore s gs d d') (ht : d.HasSite t) (hne : t ≠ s) :
    d'.groupingsAt t = d.groupingsAt t := by
  rw [h.listed t ht, if_neg hne, List.append_nil]

theorem trans (h : ListsMore s gs d d₁) (h' : ListsMore s gs' d₁ d₂) :
    ListsMore s (gs ++ gs') d d₂ where
  names := h.names.trans h'.names
  modules_le := h.modules_le.trans h'.modules_le
  listed t ht := by
    rw [h'.listed t (h.hasSite ht), h.listed t ht]
    split <;> simp

/-- What a site lists that was not there at the start is no matter. -/
theorem trans_new (h : ListsMore s gs d d₁) (h' : ListsMore t gs' d₁ d₂) (ht : ¬ d.HasSite t) :
    ListsMore s gs d d₂ where
  names := h.names.trans h'.names
  modules_le := h.modules_le.trans h'.modules_le
  listed x hx := by
    have hne : x ≠ t := fun heq => ht (heq ▸ hx)
    rw [h'.at_other (h.hasSite hx) hne, h.listed x hx]

theorem trans_keeps (h : ListsMore s gs d d₁) (h' : d₁.KeepsLists d₂) : ListsMore s gs d d₂ := by
  simpa using h.trans (h'.listsMore s)

end ListsMore

namespace KeepsLists

theorem hasSite (h : d.KeepsLists d') (ht : d.HasSite t) : d'.HasSite t :=
  (h.listsMore t).hasSite ht

theorem trans (h : d.KeepsLists d₁) (h' : d₁.KeepsLists d₂) : d.KeepsLists d₂ where
  names := h.names.trans h'.names
  modules_le := h.modules_le.trans h'.modules_le
  listed t ht := (h'.listed t (h.hasSite ht)).trans (h.listed t ht)

theorem trans_lists (h : d.KeepsLists d₁) (h' : ListsMore s gs d₁ d₂) : ListsMore s gs d d₂ :=
  (h.listsMore s).trans h'

end KeepsLists

/-! ## New records -/

theorem keepsLists_withNode (d : Draft) (r : NodeDraft) : d.KeepsLists (d.withNode r) := by
  refine ⟨.withNode d r, Nat.le_refl _, fun t ht => ?_⟩
  cases t with
  | node i =>
    show ((d.withNode r).node i).groupings = _
    rw [node_withNode, if_neg (Nat.ne_of_lt ht)]
    rfl
  | _ => rfl

theorem keepsLists_withGrouping (d : Draft) (r : GroupingDraft) : d.KeepsLists (d.withGrouping r) := by
  refine ⟨.withGrouping d r, Nat.le_refl _, fun t ht => ?_⟩
  cases t with
  | grouping g =>
    show ((d.withGrouping r).grouping g).groupings = _
    rw [grouping_withGrouping, if_neg (Nat.ne_of_lt ht)]
    rfl
  | _ => rfl

theorem keepsLists_withUses (d : Draft) (r : UsesDraft) : d.KeepsLists (d.withUses r) := by
  refine ⟨.withUses d r, Nat.le_refl _, fun t _ => ?_⟩
  cases t <;> rfl

theorem keepsLists_withAugment (d : Draft) (r : AugmentDraft) : d.KeepsLists (d.withAugment r) := by
  refine ⟨.withAugment d r, Nat.le_refl _, fun t _ => ?_⟩
  cases t <;> rfl

theorem keepsLists_withModule (d : Draft) (r : ModuleDraft) : d.KeepsLists (d.withModule r) where
  names := ⟨Nat.le_refl _, Nat.le_refl _, Nat.le_refl _, Nat.le_refl _, fun _ _ => rfl, fun _ _ => rfl,
    fun _ _ => rfl, fun _ _ => rfl⟩
  modules_le := Shelf.size_le_size_push _ _
  listed t ht := by
    cases t with
    | module i =>
      show ((d.withModule r).module i).groupings = _
      rw [module_withModule, if_neg (Nat.ne_of_lt ht)]
      rfl
    | _ => rfl

/-! ## Changed records -/

/-- A change of a node that lists `gs` more. -/
theorem listsMore_mapNode {f : NodeDraft → NodeDraft} (hname : ∀ r, (f r).name = r.name)
    (hf : ∀ r, (f r).groupings = r.groupings ++ gs) (i : NodeId) :
    ListsMore (.node i) gs d (d.mapNode i f) where
  names := .mapNode hname i
  modules_le := Nat.le_refl _
  listed _ ht := groupingsAt_mapNode hf fun _ => ht

theorem listsMore_mapGrouping {f : GroupingDraft → GroupingDraft}
    (hname : ∀ r, (f r).facts.name = r.facts.name) (hf : ∀ r, (f r).groupings = r.groupings ++ gs)
    (i : GroupingId) : ListsMore (.grouping i) gs d (d.mapGrouping i f) where
  names := .mapGrouping hname i
  modules_le := Nat.le_refl _
  listed _ ht := groupingsAt_mapGrouping hf fun _ => ht

theorem listsMore_mapModule {f : ModuleDraft → ModuleDraft}
    (hf : ∀ r, (f r).groupings = r.groupings ++ gs) (i : ModuleId) :
    ListsMore (.module i) gs d (d.mapModule i f) where
  names := .mapModule f i
  modules_le := (Shelf.size_update _ _ _).ge
  listed _ ht := groupingsAt_mapModule hf fun _ => ht

/-! ## Edits -/

theorem ends_editNode_lists {f : NodeDraft → NodeDraft} (hname : ∀ r, (f r).name = r.name)
    (hf : ∀ r, (f r).groupings = r.groupings ++ gs) (i : NodeId) :
    Ends (editNode i f) d (fun _ d' => ListsMore (.node i) gs d d') fun _ _ => True :=
  ends_requireOpen_modify (listsMore_mapNode hname hf i)

theorem ends_editGrouping_lists {f : GroupingDraft → GroupingDraft}
    (hname : ∀ r, (f r).facts.name = r.facts.name) (hf : ∀ r, (f r).groupings = r.groupings ++ gs)
    (i : GroupingId) :
    Ends (editGrouping i f) d (fun _ d' => ListsMore (.grouping i) gs d d') fun _ _ => True :=
  ends_requireOpen_modify (listsMore_mapGrouping hname hf i)

theorem ends_editModule_lists {f : ModuleDraft → ModuleDraft}
    (hf : ∀ r, (f r).groupings = r.groupings ++ gs) (i : ModuleId) :
    Ends (editModule i f) d (fun _ d' => ListsMore (.module i) gs d d') fun _ _ => True :=
  ends_requireOpen_modify (listsMore_mapModule hf i)

theorem ends_pushGrouping_lists (g : GroupingId) :
    Ends (pushGrouping s g) d (fun _ d' => ListsMore s [g] d d') fun _ _ => True := by
  cases s with
  | module i => exact ends_editModule_lists (by intro; rfl) i
  | node i => exact ends_editNode_lists (by intro; rfl) (by intro; rfl) i
  | grouping i => exact ends_editGrouping_lists (by intro; rfl) (by intro; rfl) i
  | augment i => exact (ends_throw _).2 trivial

/-! ### Edits that are about something else -/

theorem ends_editModule_quiet {f : ModuleDraft → ModuleDraft} (hf : ∀ r, (f r).groupings = r.groupings)
    (i : ModuleId) : Ends (editModule i f) d (fun _ d' => d.KeepsLists d') fun _ _ => True :=
  (ends_editModule_lists (fun r => (hf r).trans (List.append_nil _).symm) i).mono
    (fun _ _ h => h.keepsLists) fun _ _ => id

theorem ends_editNode_quiet {f : NodeDraft → NodeDraft} (hname : ∀ r, (f r).name = r.name)
    (hf : ∀ r, (f r).groupings = r.groupings) (i : NodeId) :
    Ends (editNode i f) d (fun _ d' => d.KeepsLists d') fun _ _ => True :=
  (ends_editNode_lists hname (fun r => (hf r).trans (List.append_nil _).symm) i).mono
    (fun _ _ h => h.keepsLists) fun _ _ => id

theorem ends_editGrouping_quiet {f : GroupingDraft → GroupingDraft}
    (hname : ∀ r, (f r).facts.name = r.facts.name) (hf : ∀ r, (f r).groupings = r.groupings)
    (i : GroupingId) : Ends (editGrouping i f) d (fun _ d' => d.KeepsLists d') fun _ _ => True :=
  (ends_editGrouping_lists hname (fun r => (hf r).trans (List.append_nil _).symm) i).mono
    (fun _ _ h => h.keepsLists) fun _ _ => id

theorem ends_editUses_quiet {f : UsesDraft → UsesDraft}
    (hf : ∀ r, (f r).facts.grouping = r.facts.grouping) (i : UsesId) :
    Ends (editUses i f) d (fun _ d' => d.KeepsLists d') fun _ _ => True := by
  refine ends_requireOpen_modify ⟨.mapUses hf i, Nat.le_refl _, fun t _ => ?_⟩
  cases t <;> rfl

theorem ends_editAugment_quiet {f : AugmentDraft → AugmentDraft}
    (hf : ∀ r, (f r).facts.target = r.facts.target) (i : AugmentId) :
    Ends (editAugment i f) d (fun _ d' => d.KeepsLists d') fun _ _ => True := by
  refine ends_requireOpen_modify ⟨.mapAugment hf i, Nat.le_refl _, fun t _ => ?_⟩
  cases t <;> rfl

theorem ends_pushTypedef_quiet (x : Typedef) :
    Ends (pushTypedef t x) d (fun _ d' => d.KeepsLists d') fun _ _ => True := by
  cases t with
  | module i => exact ends_editModule_quiet (by intro; rfl) i
  | node i => exact ends_editNode_quiet (by intro; rfl) (by intro; rfl) i
  | grouping i => exact ends_editGrouping_quiet (by intro; rfl) (by intro; rfl) i
  | augment i => exact (ends_throw _).2 trivial

theorem ends_pushUnknown_quiet (us : List UnknownStatement) :
    Ends (pushUnknown t us) d (fun _ d' => d.KeepsLists d') fun _ _ => True := by
  cases t with
  | module i => exact ends_editModule_quiet (by intro; rfl) i
  | node i => exact ends_editNode_quiet (by intro; rfl) (by intro; rfl) i
  | grouping i => exact ends_editGrouping_quiet (by intro; rfl) (by intro; rfl) i
  | augment i => exact ends_editAugment_quiet (by intro; rfl) i

theorem ends_pushUses_quiet (u : UsesId) :
    Ends (pushUses t u) d (fun _ d' => d.KeepsLists d') fun _ _ => True := by
  cases t with
  | module i => exact ends_editModule_quiet (by intro; rfl) i
  | node i => exact ends_editNode_quiet (by intro; rfl) (by intro; rfl) i
  | grouping i => exact ends_editGrouping_quiet (by intro; rfl) (by intro; rfl) i
  | augment i => exact ends_editAugment_quiet (by intro; rfl) i

theorem ends_editChildren_quiet (f : List NodeId → List NodeId) :
    Ends (editChildren t f) d (fun _ d' => d.KeepsLists d') fun _ _ => True := by
  cases t with
  | module i => exact ends_editModule_quiet (by intro; rfl) i
  | node i => exact ends_editNode_quiet (by intro; rfl) (by intro; rfl) i
  | grouping i => exact ends_editGrouping_quiet (by intro; rfl) (by intro; rfl) i
  | augment i => exact ends_editAugment_quiet (by intro; rfl) i

/-! ### Attaching -/

theorem ends_repath_quiet (fuel : Nat) : ∀ (i : NodeId) (above : SchemaPath) (d : Draft),
    Ends (repath fuel i above) d (fun _ d' => d.KeepsLists d') fun _ _ => True := by
  induction fuel with
  | zero => exact fun _ _ _ => (ends_throw _).2 trivial
  | succ fuel ih =>
    intro i above d
    rw [repath, ends_bind]
    refine (ends_editNode_quiet (by intro; rfl) (by intro; rfl) i).mono (fun _ d₁ h₁ => ?_) fun _ _ => id
    rw [ends_bind, ends_get]
    refine ends_forM (I := fun _ d' => d.KeepsLists d') _ h₁ fun pre c post d₂ _ h₂ => ?_
    exact (ih c _ d₂).mono (fun _ d₃ h₃ => h₂.trans h₃) fun _ _ => id

theorem ends_place_quiet (c : NodeId) :
    Ends (place t c) d (fun _ d' => d.KeepsLists d') fun _ _ => True := by
  unfold place
  rw [ends_bind, ends_get, ends_bind]
  refine (ends_editChildren_quiet _).mono (fun _ d₁ h₁ => ?_) fun _ _ => id
  rw [ends_bind]
  refine (ends_editNode_quiet (by intro; rfl) (by intro; rfl) c).mono (fun _ d₂ h₂ => ?_) fun _ _ => id
  rw [ends_bind, ends_get]
  exact (ends_repath_quiet _ c _ d₂).mono (fun _ d₃ h₃ => (h₁.trans h₂).trans h₃) fun _ _ => id

theorem ends_attach_quiet (c : NodeId) :
    Ends (attach t c) d (fun _ d' => d.KeepsLists d') fun _ _ => True := by
  have hplace : Ends (place t c >>= fun _ => pure c) d (fun _ d' => d.KeepsLists d')
      fun _ _ => True := by
    rw [ends_bind]
    exact ends_place_quiet c
  unfold attach
  rw [ends_bind, ends_get]
  cases t with
  | node p =>
    dsimp only
    split
    · exact (ends_throw _).2 trivial
    split
    · rw [ends_bind]
      refine (ends_addNode _).2 ?_
      rw [ends_bind]
      refine (ends_place_quiet _).mono (fun _ d₂ h₂ => ?_) fun _ _ => id
      rw [ends_bind]
      exact (ends_place_quiet c).mono
        (fun _ d₃ h₃ => ((keepsLists_withNode d _).trans h₂).trans h₃) fun _ _ => id
    · exact hplace
  | _ => exact hplace

end Draft

end YangSchema
