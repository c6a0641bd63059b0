import YangSchema.Proofs.Deadlock

/-!
# In which pass a uses is expanded

The uses are tried in passes, and what is put off in a pass is tried again in the next one.  So a uses
that awaits another one is put off at least as often as that one, and once more if it stands before it
(`UsesTask.PutOff`).  Nothing else puts it off: a pass leaves just those uses that are put off at least
once (`UsesPass.eq_filter`), and for these the next pass begins anew (`UsesTask.putOff_succ_iff`).  Of
two uses the one that is put off more often is expanded later, and otherwise the one that stands behind
(`Passes.sublist_expands`).
-/

namespace YangSchema

open Draft Edit

/-! ## What a run expands -/

/-- The uses that the move expands. -/
def Move.expanded? : Move → Option UsesTask
  | .expand t => some t
  | .merge _ => none

/-- The uses that are expanded, one after the other. -/
def expands (ms : List Move) : List UsesTask := ms.filterMap Move.expanded?

theorem expands_append (ms ms' : List Move) : expands (ms ++ ms') = expands ms ++ expands ms' :=
  List.filterMap_append

theorem expands_map_expand (l : List UsesTask) : expands (l.map .expand) = l := by
  unfold expands
  rw [List.filterMap_map]
  exact List.filterMap_some

/-- What is expanded and what is left is what was there. -/
theorem Run.perm_expands {S S' : Stage} {ms : List Move} (h : Run S ms S') :
    S.uses.Perm (expands ms ++ S'.uses) := by
  induction h with
  | nil => exact .refl _
  | cons hstep _ ih =>
    cases hstep with
    | expand => exact List.perm_middle.trans (ih.cons _)
    | merge => exact ih

/-! ## How often a uses is put off -/

/-- Tried in passes with the others, the task is put off at least so many times. -/
inductive UsesTask.PutOff (d : Draft) (tasks : List UsesTask) : UsesTask → Nat → Prop
  | start (t : UsesTask) : UsesTask.PutOff d tasks t 0
  /-- It awaits one before it. -/
  | before {t u : UsesTask} {n : Nat} (h : [u, t].Sublist tasks) (hawaits : t.Awaits d u)
    (hu : UsesTask.PutOff d tasks u n) : UsesTask.PutOff d tasks t n
  /-- It awaits one behind it. -/
  | behind {t u : UsesTask} {n : Nat} (h : [t, u].Sublist tasks) (hawaits : t.Awaits d u)
    (hu : UsesTask.PutOff d tasks u n) : UsesTask.PutOff d tasks t (n + 1)

/-- Tried in passes with the others, the task is put off no more often than the other one. -/
def UsesTask.NoLater (d : Draft) (tasks : List UsesTask) (t u : UsesTask) : Prop :=
  ∀ n, t.PutOff d tasks n → u.PutOff d tasks n

section Passes

variable {d d₀ d' : Draft} {t u : UsesTask} {tasks pre kept rest done left : List UsesTask} {n : Nat}
  {S S' : Stage} {ms : List Move} {augments : List AugmentTask}

theorem UsesTask.PutOff.of_succ (h : t.PutOff d tasks (n + 1)) : t.PutOff d tasks n := by
  generalize hm : n + 1 = m at h
  induction h generalizing n with
  | start => cases hm
  | before h hawaits _ ih => exact .before h hawaits (ih hm)
  | @behind t u m h hawaits hu ih =>
    cases n with
    | zero => exact .start t
    | succ n => exact .behind h hawaits (ih (Nat.succ.inj hm))

theorem UsesTask.PutOff.of_not_once (h : t.PutOff d tasks n) (hno : ¬ t.PutOff d tasks 1) : n = 0 := by
  induction n with
  | zero => rfl
  | succ n ih =>
    obtain rfl := ih h.of_succ
    exact absurd h hno

theorem UsesTask.noLater_of_not_once (hno : ¬ t.PutOff d tasks 1) : t.NoLater d tasks u := by
  intro n hn
  rw [hn.of_not_once hno]
  exact .start u

/-- A task that awaits none is not put off. -/
theorem UsesTask.not_putOff_of_forall (h : ∀ u ∈ tasks, ¬ t.Awaits d u) : ¬ t.PutOff d tasks (n + 1) := by
  intro hn
  cases hn with
  | before hsub hawaits => exact h _ (hsub.subset List.mem_cons_self) hawaits
  | behind hsub hawaits => exact h _ (hsub.subset (List.mem_cons_of_mem _ List.mem_cons_self)) hawaits

open Classical in
/-- What a pass leaves is put off once less from there on. -/
theorem UsesTask.putOff_succ_iff (hleft : left = tasks.filter fun t => t.PutOff d tasks 1) :
    t.PutOff d tasks (n + 1) ↔ t.PutOff d tasks 1 ∧ t.PutOff d left n := by
  -- those that are put off stand in `left` as they stood
  have hpair : ∀ {t u : UsesTask}, [t, u].Sublist tasks → t.PutOff d tasks 1 → u.PutOff d tasks 1 →
      [t, u].Sublist left := by
    intro t u h ht hu
    rw [hleft]
    simpa [ht, hu] using h.filter fun t => decide (t.PutOff d tasks 1)
  constructor
  · intro h
    generalize hm : n + 1 = m at h
    induction h generalizing n with
    | start => cases hm
    | before h hawaits _ ih =>
      obtain ⟨hu, hn⟩ := ih hm
      have ht := UsesTask.PutOff.before h hawaits hu
      exact ⟨ht, .before (hpair h hu ht) hawaits hn⟩
    | @behind t u m h hawaits hu ih =>
      obtain rfl := Nat.succ.inj hm
      have ht := UsesTask.PutOff.behind h hawaits (.start u)
      cases n with
      | zero => exact ⟨ht, .start t⟩
      | succ n =>
        obtain ⟨hu, hn⟩ := ih rfl
        exact ⟨ht, .behind (hpair h ht hu) hawaits hn⟩
  · rintro ⟨ht, hn⟩
    have hsub : left.Sublist tasks := hleft ▸ List.filter_sublist
    have honce : ∀ {u}, u ∈ left → u.PutOff d tasks 1 := by
      intro u hu
      rw [hleft] at hu
      exact of_decide_eq_true (List.mem_filter.1 hu).2
    induction hn with
    | start => exact ht
    | before h hawaits _ ih =>
      exact .before (h.trans hsub) hawaits (ih (honce (h.subset List.mem_cons_self)))
    | behind h hawaits _ ih =>
      have hu := h.subset (List.mem_cons_of_mem _ List.mem_cons_self)
      exact .behind (h.trans hsub) hawaits (ih (honce hu))

open Classical in
/-- Of two tasks that a pass leaves the one that is put off more often still is. -/
theorem UsesTask.noLater_left_iff (hleft : left = tasks.filter fun t => t.PutOff d tasks 1)
    (ht : t.PutOff d tasks 1) (hu : u.PutOff d tasks 1) : t.NoLater d left u ↔ t.NoLater d tasks u := by
  constructor
  · intro h n hn
    cases n with
    | zero => exact .start u
    | succ n => exact (putOff_succ_iff hleft).2 ⟨hu, h n ((putOff_succ_iff hleft).1 hn).2⟩
  · intro h n hn
    exact ((putOff_succ_iff hleft).1 (h _ ((putOff_succ_iff hleft).2 ⟨ht, hn⟩))).2

/-! ## One pass -/

/-- In a list without repetitions, who stands before an entry. -/
theorem pair_sublist_iff_mem_left {α : Type} {l l' : List α} {x y : α} (h : (l ++ x :: l').Nodup) :
    [y, x].Sublist (l ++ x :: l') ↔ y ∈ l := by
  constructor
  · intro hsub
    obtain ⟨l₁, l₂, heq, h₁, h₂⟩ := List.sublist_append_iff.1 hsub
    obtain ⟨-, hnodup, -⟩ := List.nodup_append.1 h
    cases l₁ with
    | nil =>
      -- then both would stand from the entry on
      obtain rfl := heq
      have hmem : x ∈ l' := by
        rcases List.sublist_cons_iff.1 h₂ with h₂ | ⟨r, heq, hr⟩
        · exact h₂.subset (by simp)
        · cases heq
          exact hr.subset (by simp)
      exact absurd hmem (List.nodup_cons.1 hnodup).1
    | cons z l₁ =>
      obtain ⟨rfl, -⟩ := List.cons.inj heq
      exact h₁.subset List.mem_cons_self
  · intro hy
    exact (List.singleton_sublist.2 hy).append (List.singleton_sublist.2 List.mem_cons_self)

/-- Who stands behind it. -/
theorem pair_sublist_iff_mem_right {α : Type} {l l' : List α} {x y : α} (h : (l ++ x :: l').Nodup) :
    [x, y].Sublist (l ++ x :: l') ↔ y ∈ l' := by
  have hreverse : (l'.reverse ++ x :: l.reverse).Nodup := by simpa using List.nodup_reverse.2 h
  rw [← List.reverse_sublist, ← List.mem_reverse, ← pair_sublist_iff_mem_left hreverse]
  simp

open Classical in
/-- At its turn a task has to wait exactly if it is put off at least once. -/
theorem UsesTask.waits_iff_putOff (hS : Stage.From d₀ ⟨kept ++ t :: rest, augments, d⟩)
    (hresolve : t.resolve d₀ ≠ none) (htasks : tasks = pre ++ t :: rest) (hnodup : tasks.Nodup)
    (hkept : kept = pre.filter fun t => t.PutOff d₀ tasks 1) :
    t.Waits ((kept ++ rest).flatMap UsesTask.occupies) d ↔ t.PutOff d₀ tasks 1 := by
  have ht : t ∈ kept ++ t :: rest := by simp
  have hawaits : ∀ {u}, t.Awaits d u ↔ t.Awaits d₀ u := hS.awaits_iff ht
  have hmem : ∀ {u}, u ∈ kept ↔ u ∈ pre ∧ u.PutOff d₀ tasks 1 := by
    intro u
    rw [hkept, List.mem_filter, decide_eq_true_iff]
  subst htasks
  constructor
  · intro hwaits
    obtain ⟨g, hg⟩ := Option.ne_none_iff_exists'.1 hresolve
    rw [← hS.follows.resolve] at hg
    obtain ⟨u, hu, htu⟩ := hwaits.exists_awaits hg
    rw [hawaits] at htu
    rcases List.mem_append.1 hu with hu | hu
    · obtain ⟨hpre, honce⟩ := hmem.1 hu
      exact .before ((pair_sublist_iff_mem_left hnodup).2 hpre) htu honce
    · exact .behind ((pair_sublist_iff_mem_right hnodup).2 hu) htu (.start u)
  · intro honce
    cases honce with
    | @before _ u _ h htu hu =>
      have hpre := (pair_sublist_iff_mem_left hnodup).1 h
      exact (hawaits.2 htu).waits (List.mem_append_left _ (hmem.2 ⟨hpre, hu⟩))
    | behind h htu =>
      exact (hawaits.2 htu).waits (List.mem_append_right _ ((pair_sublist_iff_mem_right hnodup).1 h))

open Classical in
/-- A pass leaves those that are put off at least once. -/
theorem UsesPass.eq_filter (h : UsesPass kept rest d done left d')
    (hS : Stage.From d₀ ⟨kept ++ rest, augments, d⟩) (hresolve : ∀ t ∈ rest, t.resolve d₀ ≠ none)
    (htasks : tasks = pre ++ rest) (hnodup : tasks.Nodup)
    (hkept : kept = pre.filter fun t => t.PutOff d₀ tasks 1) :
    left = tasks.filter (fun t => t.PutOff d₀ tasks 1) ∧
      done = rest.filter fun t => ¬ t.PutOff d₀ tasks 1 := by
  induction h generalizing pre with
  | nil kept d =>
    rw [List.append_nil] at htasks
    subst htasks
    exact ⟨hkept, rfl⟩
  | @applied kept rest done left t d d₁ d₂ h _ ih =>
    have ht : t ∈ kept ++ t :: rest := by simp
    obtain ⟨hwaits, -⟩ := (UsesTask.ends_attempt hS.sound (hS.fits t ht) _).of_ok h
    rw [UsesTask.waits_iff_putOff hS (hresolve t List.mem_cons_self) htasks hnodup hkept] at hwaits
    have hkept' : kept = (pre ++ [t]).filter fun t => t.PutOff d₀ tasks 1 := by
      rw [List.filter_append, ← hkept, List.filter_cons_of_neg (by simpa using hwaits), List.filter_nil,
        List.append_nil]
    obtain ⟨hleft, hdone⟩ := ih ((Step.expand h).from hS)
      (fun u hu => hresolve u (List.mem_cons_of_mem _ hu)) (by rw [htasks, List.append_assoc]; rfl) hkept'
    refine ⟨hleft, ?_⟩
    rw [List.filter_cons_of_pos (by simpa using hwaits), hdone]
  | @putOff kept rest done left t d d₁ hwaits _ ih =>
    rw [UsesTask.waits_iff_putOff hS (hresolve t List.mem_cons_self) htasks hnodup hkept] at hwaits
    have hkept' : kept ++ [t] = (pre ++ [t]).filter fun t => t.PutOff d₀ tasks 1 := by
      rw [List.filter_append, ← hkept, List.filter_cons_of_pos (by simpa using hwaits), List.filter_nil]
    have happend : kept ++ t :: rest = kept ++ [t] ++ rest := by simp
    obtain ⟨hleft, hdone⟩ := ih (happend ▸ hS) (fun u hu => hresolve u (List.mem_cons_of_mem _ hu))
      (by rw [htasks, List.append_assoc]; rfl) hkept'
    refine ⟨hleft, ?_⟩
    rw [List.filter_cons_of_neg (by simpa using hwaits), hdone]

/-! ## All passes -/

/-- Augmentations that are merged expand no uses. -/
theorem Run.expands_eq_nil (h : Run S ms S') (huses : S'.uses = S.uses) : expands ms = [] := by
  have hlength := h.perm_expands.length_eq
  rw [huses, List.length_append] at hlength
  exact List.eq_nil_of_length_eq_zero (by omega)

open Classical in
/-- If those of a list that fulfil a condition are put behind the others, in any order, then an entry stands
before a later one, unless it alone fulfils the condition. -/
theorem pair_sublist_partition {α : Type} {p : α → Prop} {l l' : List α} {x y : α}
    (h : [x, y].Sublist l) (hperm : l'.Perm (l.filter fun a => p a)) :
    (¬ p x → [x, y].Sublist ((l.filter fun a => ¬ p a) ++ l')) ∧
      (p x → ¬ p y → [y, x].Sublist ((l.filter fun a => ¬ p a) ++ l')) := by
  have hx := h.subset List.mem_cons_self
  have hy := h.subset (List.mem_cons_of_mem _ List.mem_cons_self)
  have hlater : ∀ {a}, a ∈ l → p a → [a].Sublist l' := fun ha hpa =>
    List.singleton_sublist.2 (hperm.symm.subset (List.mem_filter.2 ⟨ha, decide_eq_true hpa⟩))
  have hnow : ∀ {a}, a ∈ l → ¬ p a → [a].Sublist (l.filter fun a => ¬ p a) := fun ha hpa =>
    List.singleton_sublist.2 (List.mem_filter.2 ⟨ha, decide_eq_true hpa⟩)
  refine ⟨fun hpx => ?_, fun hpx hpy => (hnow hy hpy).append (hlater hx hpx)⟩
  by_cases hpy : p y
  · exact (hnow hx hpx).append (hlater hy hpy)
  · refine List.Sublist.trans ?_ (List.sublist_append_left _ _)
    simpa [hpx, hpy] using h.filter fun a => decide (¬ p a)

/-- Of two tasks the one that is put off more often is expanded later, and otherwise the one that stands
behind. -/
theorem Passes.sublist_expands (h : Passes S ms S') (hend : S'.uses = []) (hS : S.From d₀)
    (hresolve : ∀ t ∈ S.uses, t.resolve d₀ ≠ none) (hnodup : S.uses.Nodup)
    (htu : [t, u].Sublist S.uses) :
    (t.NoLater d₀ S.uses u → [t, u].Sublist (expands ms)) ∧
      (¬ t.NoLater d₀ S.uses u → [u, t].Sublist (expands ms)) := by
  classical
  induction h with
  | nil =>
    rw [hend] at htu
    cases htu
  | @cons S S₁ S' done left d ms ms' huses hmerges hleft hpasses ih =>
    have hkept : ([] : List UsesTask) = List.filter (fun t => t.PutOff d₀ S.uses 1) [] := rfl
    obtain ⟨hfilter, rfl⟩ := huses.eq_filter hS hresolve (List.nil_append _).symm hnodup hkept
    rw [hfilter] at hleft
    have hS₁ : S₁.From d₀ := hmerges.from ((huses.run S.augments).from hS)
    have hperm := hpasses.run.perm_expands
    rw [hend, List.append_nil, hleft] at hperm
    rw [expands_append, expands_append, expands_map_expand, hmerges.expands_eq_nil (hfilter ▸ hleft),
      List.append_nil]
    obtain ⟨hnow, hlater⟩ := pair_sublist_partition htu hperm.symm
    by_cases ht : t.PutOff d₀ S.uses 1
    · by_cases hu : u.PutOff d₀ S.uses 1
      · -- both are left for the passes that follow
        have hsub : S₁.uses.Sublist S.uses := hleft ▸ List.filter_sublist
        have hpair : [t, u].Sublist S₁.uses := by
          rw [hleft]
          simpa [ht, hu] using htu.filter fun t => decide (t.PutOff d₀ S.uses 1)
        obtain ⟨hfirst, hlast⟩ := ih hend hS₁ (fun v hv => hresolve v (hsub.subset hv)) (hsub.nodup hnodup)
          hpair
        rw [← UsesTask.noLater_left_iff hleft ht hu]
        exact ⟨fun h => (hfirst h).trans (List.sublist_append_right _ _),
          fun h => (hlast h).trans (List.sublist_append_right _ _)⟩
      · exact ⟨fun h => absurd (h 1 ht) hu, fun _ => hlater ht hu⟩
    · exact ⟨fun _ => hnow ht, fun h => absurd (UsesTask.noLater_of_not_once ht) h⟩

end Passes

end YangSchema
