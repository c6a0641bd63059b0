import YangSchema.Draft.Basic

/-!
# What edits do to a draft

Running an edit step by step: `perform_bind` splits a sequence, and an equation for each of the
basic edits says what it answers and which draft it leaves.  The main facts: adding a record never
fails, gives the id that counts the records, and puts the new one behind them (`perform_addNode` and
its siblings); editing a frozen record fails and changes nothing, editing an open one changes that
record alone (`perform_editNode` and its siblings).
-/

namespace YangSchema

/-! ## Snapshots on a shelf -/

namespace Shelf

variable {ρ σ : Type}

theorem snapshot?_push (s : Shelf ρ σ) (r : ρ) (i : Nat) :
    (s.push r).snapshot? i = s.snapshot? i := by
  simp only [snapshot?, push, Array.getElem?_push]
  split
  · next h => subst h; simp
  · rfl

@[simp] theorem snapshot?_update (s : Shelf ρ σ) (i j : Nat) (f : ρ → ρ) :
    (s.update i f).snapshot? j = s.snapshot? j := by
  simp only [snapshot?, update, Array.getElem?_modify]
  split
  · next h => subst h; cases s.slots[i]? <;> rfl
  · rfl

theorem snapshot?_freeze (s : Shelf ρ σ) (i j : Nat) (v : σ) :
    (s.freeze i v).snapshot? j = if i = j ∧ j < s.size then some v else s.snapshot? j := by
  simp only [snapshot?, freeze, size, Array.getElem?_modify]
  by_cases hij : i = j
  · subst hij
    cases h : s.slots[i]? with
    | none => simp [Nat.not_lt.2 (Array.getElem?_eq_none_iff.1 h)]
    | some slot => simp [(Array.getElem?_eq_some_iff.1 h).1]
  · simp [hij]

@[simp] theorem isFrozen_push (s : Shelf ρ σ) (r : ρ) (i : Nat) :
    (s.push r).isFrozen i = s.isFrozen i := by rw [isFrozen, snapshot?_push, isFrozen]

@[simp] theorem isFrozen_update (s : Shelf ρ σ) (i j : Nat) (f : ρ → ρ) :
    (s.update i f).isFrozen j = s.isFrozen j := by rw [isFrozen, snapshot?_update, isFrozen]

end Shelf

/-! ## Running edits -/

namespace Edit

variable {α β : Type}

@[simp] theorem perform_pure (a : α) (d : Draft) : perform (pure a) d = (.ok a, d) := rfl

@[simp] theorem perform_throw (e : Fault) (d : Draft) :
    perform (throw e : Edit α) d = (.error e, d) := rfl

@[simp] theorem perform_get (d : Draft) : perform get d = (.ok d, d) := rfl

@[simp] theorem perform_modify (f : Draft → Draft) (d : Draft) :
    perform (modify f) d = (.ok ⟨⟩, f d) := rfl

@[simp] theorem perform_modifyGet (f : Draft → α × Draft) (d : Draft) :
    perform (modifyGet f) d = (.ok (f d).1, (f d).2) := rfl

theorem perform_bind (e : Edit α) (k : α → Edit β) (d : Draft) :
    perform (e >>= k) d =
      match perform e d with
      | (.ok a, d') => perform (k a) d'
      | (.error x, d') => (.error x, d') := by
  simp only [perform, ExceptT.run_bind, StateT.run_bind]
  cases h : StateT.run (ExceptT.run e) d with
  | mk r d' => cases r <;> rfl

/-- A sequence goes on from where its first part ended well. -/
theorem perform_bind_of_ok {e : Edit α} {d d' : Draft} {a : α} (h : perform e d = (.ok a, d'))
    (k : α → Edit β) : perform (e >>= k) d = perform (k a) d' := by
  rw [perform_bind, h]

/-- A sequence ends where its first part fails. -/
theorem perform_bind_of_error {e : Edit α} {d d' : Draft} {x : Fault}
    (h : perform e d = (.error x, d')) (k : α → Edit β) :
    perform (e >>= k) d = (.error x, d') := by
  rw [perform_bind, h]

/-- If a sequence succeeds, both of its parts do. -/
theorem ok_of_perform_bind {e : Edit α} {k : α → Edit β} {d d'' : Draft} {b : β}
    (h : perform (e >>= k) d = (.ok b, d'')) :
    ∃ a d', perform e d = (.ok a, d') ∧ perform (k a) d' = (.ok b, d'') := by
  rw [perform_bind] at h
  cases he : perform e d with
  | mk r d' =>
    rw [he] at h
    cases r with
    | ok a => exact ⟨a, d', rfl, h⟩
    | error x => cases h

end Edit

/-! ## The basic edits -/

namespace Draft

open Edit

theorem perform_requireOpen (frozen : Bool) (id : String) (d : Draft) :
    perform (requireOpen frozen id) d =
      if frozen then (.error (.internal (.alreadyFrozen id)), d) else (.ok (), d) := by
  cases frozen <;> rfl

/-- A change behind a check happens as a whole or not at all. -/
theorem perform_requireOpen_modify (frozen : Draft → Bool) (id : String) (f : Draft → Draft)
    (d : Draft) :
    perform (do requireOpen (frozen (← get)) id; modify f) d =
      if frozen d then (.error (.internal (.alreadyFrozen id)), d) else (.ok (), f d) := by
  cases h : frozen d <;> simp [perform_bind, perform_requireOpen, h]

@[simp] theorem perform_addNode (r : NodeDraft) (d : Draft) :
    perform (addNode r) d = (.ok ⟨d.nodes.size⟩, { d with nodes := d.nodes.push r }) := rfl

@[simp] theorem perform_addGrouping (r : GroupingDraft) (d : Draft) :
    perform (addGrouping r) d =
      (.ok ⟨d.groupings.size⟩, { d with groupings := d.groupings.push r }) := rfl

@[simp] theorem perform_addUses (r : UsesDraft) (d : Draft) :
    perform (addUses r) d = (.ok ⟨d.uses.size⟩, { d with uses := d.uses.push r }) := rfl

@[simp] theorem perform_addAugment (r : AugmentDraft) (d : Draft) :
    perform (addAugment r) d =
      (.ok ⟨d.augments.size⟩, { d with augments := d.augments.push r }) := rfl

theorem perform_editNode (i : NodeId) (f : NodeDraft → NodeDraft) (d : Draft) :
    perform (editNode i f) d =
      if d.nodes.isFrozen i.index then (.error (.internal (.alreadyFrozen i.render)), d)
      else (.ok (), { d with nodes := d.nodes.update i.index f }) :=
  perform_requireOpen_modify _ _ _ _

theorem perform_editGrouping (i : GroupingId) (f : GroupingDraft → GroupingDraft) (d : Draft) :
    perform (editGrouping i f) d =
      if d.groupings.isFrozen i.index then (.error (.internal (.alreadyFrozen i.render)), d)
      else (.ok (), { d with groupings := d.groupings.update i.index f }) :=
  perform_requireOpen_modify _ _ _ _

theorem perform_editUses (i : UsesId) (f : UsesDraft → UsesDraft) (d : Draft) :
    perform (editUses i f) d =
      if d.uses.isFrozen i.index then (.error (.internal (.alreadyFrozen i.render)), d)
      else (.ok (), { d with uses := d.uses.update i.index f }) :=
  perform_requireOpen_modify _ _ _ _

theorem perform_editAugment (i : AugmentId) (f : AugmentDraft → AugmentDraft) (d : Draft) :
    perform (editAugment i f) d =
      if d.augments.isFrozen i.index then (.error (.internal (.alreadyFrozen i.render)), d)
      else (.ok (), { d with augments := d.augments.update i.index f }) :=
  perform_requireOpen_modify _ _ _ _

theorem perform_editModule (i : ModuleId) (f : ModuleDraft → ModuleDraft) (d : Draft) :
    perform (editModule i f) d =
      if d.modules.isFrozen i.index then (.error (.internal (.alreadyFrozen i.render)), d)
      else (.ok (), { d with modules := d.modules.update i.index f }) :=
  perform_requireOpen_modify _ _ _ _

end Draft

end YangSchema
