import YangSchema.Proofs.Inference.Attempt

/-!
# Runs of the inference

A stage is what is left to do together with the draft that was reached.  `Step` carries out one task,
any one that is not held back; the conditions are those that the passes check.  A `Run` is a sequence
of steps in any order.  The passes perform a run, and end where every task is held back (`Stuck`) or
where an attempt fails (`Breaks`).
-/

namespace YangSchema

open Draft Edit

structure Stage where
  uses : List UsesTask
  augments : List AugmentTask
  draft : Draft

inductive Move where
  | expand (t : UsesTask)
  | merge (t : AugmentTask)

def Move.trace : Move → Trace
  | expand t => t.trace
  | merge t => t.trace

/-- One task is carried out. -/
inductive Step : Stage → Move → Stage → Prop
  | expand {pre post : List UsesTask} {augments : List AugmentTask} {d d' : Draft} {t : UsesTask}
    (h : (t.attempt ((pre ++ post).flatMap UsesTask.occupies)).perform d = (.ok .applied, d')) :
    Step ⟨pre ++ t :: post, augments, d⟩ (.expand t) ⟨pre ++ post, augments, d'⟩
  | merge {uses : List UsesTask} {pre post : List AugmentTask} {d d' : Draft} {t : AugmentTask}
    (hfirst : ∀ u ∈ pre, u.target ≠ t.target) (hwait : t.isWaiting uses = false)
    (h : t.attempt.perform d = (.ok .applied, d')) :
    Step ⟨uses, pre ++ t :: post, d⟩ (.merge t) ⟨uses, pre ++ post, d'⟩

/-- An attempt to carry out a task fails and leaves a draft behind. -/
inductive Breaks : Stage → Move → Fault → Draft → Prop
  | expand {pre post : List UsesTask} {augments : List AugmentTask} {d d' : Draft} {t : UsesTask}
    {f : Fault}
    (h : (t.attempt ((pre ++ post).flatMap UsesTask.occupies)).perform d = (.error f, d')) :
    Breaks ⟨pre ++ t :: post, augments, d⟩ (.expand t) f d'
  | merge {uses : List UsesTask} {pre post : List AugmentTask} {d d' : Draft} {t : AugmentTask}
    {f : Fault} (hfirst : ∀ u ∈ pre, u.target ≠ t.target) (hwait : t.isWaiting uses = false)
    (h : t.attempt.perform d = (.error f, d')) :
    Breaks ⟨uses, pre ++ t :: post, d⟩ (.merge t) f d'

/-- Tasks carried out one after the other. -/
inductive Run : Stage → List Move → Stage → Prop
  | nil (S : Stage) : Run S [] S
  | cons {S S' S'' : Stage} {m : Move} {ms : List Move} (h : Step S m S') (h' : Run S' ms S'') :
    Run S (m :: ms) S''

theorem Run.append {S S' S'' : Stage} {ms ms' : List Move} (h : Run S ms S') (h' : Run S' ms' S'') :
    Run S (ms ++ ms') S'' := by
  induction h with
  | nil => exact h'
  | cons hs _ ih => exact .cons hs (ih h')

theorem Run.exists_of_append {S S' : Stage} {ms ms' : List Move} (h : Run S (ms ++ ms') S') :
    ∃ S₁, Run S ms S₁ ∧ Run S₁ ms' S' := by
  induction ms generalizing S with
  | nil => exact ⟨S, .nil S, h⟩
  | cons m ms ih =>
    rw [List.cons_append] at h
    cases h with
    | cons hs hrest =>
      obtain ⟨S₁, h₁, h₂⟩ := ih hrest
      exact ⟨S₁, .cons hs h₁, h₂⟩

/-! ## What every step keeps -/

/-- A sound draft in which the uses have their places. -/
structure Stage.Ready (S : Stage) : Prop where
  sound : S.draft.Sound
  fits : ∀ t ∈ S.uses, t.Fits S.draft

theorem UsesTask.Fits.mono {t : UsesTask} {d d' : Draft} {s : Site} (hd : d.Sound) (h : t.Fits d)
    (hch : Changes s d d') : t.Fits d' where
  site := hch.keeps.hasSite h.site
  uses := Nat.lt_of_lt_of_le h.uses hch.keeps.uses_le
  relative a ha := by
    rw [hch.augmentations t.uses h.uses] at ha
    rw [hch.keeps.target a (hd.augment_lt t.uses a ha)]
    exact h.relative a ha

/-- What a step does: it expands a uses that does not wait, or merges an augmentation. -/
theorem Step.cases {S S' : Stage} {m : Move} (hS : S.Ready) (h : Step S m S') :
    (∃ pre t post g, m = .expand t ∧ S.uses = pre ++ t :: post ∧ S'.uses = pre ++ post ∧
      S'.augments = S.augments ∧ ¬ t.Waits ((pre ++ post).flatMap UsesTask.occupies) S.draft ∧
      t.Expanded g S.draft S'.draft) ∨
    ∃ pre t post n, m = .merge t ∧ S.augments = pre ++ t :: post ∧ S'.augments = pre ++ post ∧
      S'.uses = S.uses ∧ (∀ u ∈ pre, u.target ≠ t.target) ∧ t.isWaiting S.uses = false ∧
      S.draft.findDataNode t.target = some n ∧ Merged t.augment n S.draft S'.draft := by
  cases h with
  | @expand pre post augments d d' t h =>
    have ht : t.Fits d := hS.fits t (by simp)
    obtain ⟨hw, g, hg⟩ := (UsesTask.ends_attempt hS.sound ht _).of_ok h
    exact .inl ⟨pre, t, post, g, rfl, rfl, rfl, rfl, hw, hg⟩
  | @merge uses pre post d d' t hfirst hwait h =>
    obtain ⟨n, hn, hm⟩ := (AugmentTask.ends_attempt hS.sound).of_ok h
    exact .inr ⟨pre, t, post, n, rfl, rfl, rfl, rfl, hfirst, hwait, hn, hm⟩

theorem Step.changes {S S' : Stage} {m : Move} (hS : S.Ready) (h : Step S m S') :
    ∃ s, Changes s S.draft S'.draft := by
  rcases h.cases hS with ⟨_, t, _, _, -, -, -, -, -, hg⟩ | ⟨_, _, _, n, -, -, -, -, -, -, -, hm⟩
  · exact ⟨t.site, hg.changes hS.sound⟩
  · exact ⟨.node n, hm.changes hS.sound⟩

theorem Step.uses_subset {S S' : Stage} {m : Move} (h : Step S m S') : S'.uses ⊆ S.uses := by
  cases h with
  | expand h =>
    intro u hu
    rcases List.mem_append.1 hu with hu | hu
    · exact List.mem_append_left _ hu
    · exact List.mem_append_right _ (List.mem_cons_of_mem _ hu)
  | merge => exact List.Subset.refl _

theorem Step.augments_subset {S S' : Stage} {m : Move} (h : Step S m S') :
    S'.augments ⊆ S.augments := by
  cases h with
  | expand h => exact List.Subset.refl _
  | merge =>
    intro u hu
    rcases List.mem_append.1 hu with hu | hu
    · exact List.mem_append_left _ hu
    · exact List.mem_append_right _ (List.mem_cons_of_mem _ hu)

/-- What an attempt that fails says. -/
theorem Breaks.ofAttempt {S : Stage} {m : Move} {f : Fault} {d' : Draft} (hS : S.Ready)
    (h : Breaks S m f d') : f.OfAttempt := by
  cases h with
  | @expand pre post augments d d' t f h =>
    have ht : t.Fits d := hS.fits t (by simp)
    exact ((UsesTask.ends_attempt hS.sound ht _).of_error h).2.2
  | @merge uses pre post d d' t f _ _ h =>
    obtain ⟨n, -, -, hf⟩ := (AugmentTask.ends_attempt hS.sound).of_error h
    exact hf

theorem Step.ready {S S' : Stage} {m : Move} (hS : S.Ready) (h : Step S m S') : S'.Ready := by
  obtain ⟨s, hch⟩ := h.changes hS
  exact ⟨hch.sound, fun t ht => (hS.fits t (h.uses_subset ht)).mono hS.sound hch⟩

theorem Step.length {S S' : Stage} {m : Move} (h : Step S m S') :
    S'.uses.length + S'.augments.length + 1 = S.uses.length + S.augments.length := by
  cases h with
  | expand h =>
    simp only [List.length_append, List.length_cons]
    omega
  | merge =>
    simp only [List.length_append, List.length_cons]
    omega

namespace Run

variable {S S' : Stage} {ms : List Move}

theorem ready (hS : S.Ready) (h : Run S ms S') : S'.Ready := by
  induction h with
  | nil => exact hS
  | cons hs _ ih => exact ih (hs.ready hS)

theorem uses_subset (h : Run S ms S') : S'.uses ⊆ S.uses := by
  induction h with
  | nil => exact List.Subset.refl _
  | cons hs _ ih => exact List.Subset.trans ih hs.uses_subset

theorem augments_subset (h : Run S ms S') : S'.augments ⊆ S.augments := by
  induction h with
  | nil => exact List.Subset.refl _
  | cons hs _ ih => exact List.Subset.trans ih hs.augments_subset

theorem keeps (hS : S.Ready) (h : Run S ms S') : S.draft.Keeps S'.draft := by
  induction h with
  | nil => exact .refl _
  | cons hs _ ih =>
    obtain ⟨s, hch⟩ := hs.changes hS
    exact hch.keeps.trans (ih (hs.ready hS))

theorem length (h : Run S ms S') :
    S'.uses.length + S'.augments.length + ms.length = S.uses.length + S.augments.length := by
  induction h with
  | nil => rfl
  | cons hs _ ih =>
    have := hs.length
    simp only [List.length_cons]
    omega

/-- A run without steps does nothing. -/
theorem eq_of_length (h : Run S ms S')
    (hlen : S'.uses.length + S'.augments.length = S.uses.length + S.augments.length) :
    ms = [] ∧ S' = S := by
  have := h.length
  obtain rfl : ms = [] := List.eq_nil_of_length_eq_zero (by omega)
  cases h
  exact ⟨rfl, rfl⟩

end Run

/-! ## The passes -/

/-- Every task is held back. -/
structure Stage.Stuck (S : Stage) : Prop where
  uses : ∀ pre t post, S.uses = pre ++ t :: post →
    t.Waits ((pre ++ post).flatMap UsesTask.occupies) S.draft
  augments : ∀ pre t post, S.augments = pre ++ t :: post →
    (∃ u ∈ pre, u.target = t.target) ∨ t.isWaiting S.uses = true ∨
      S.draft.findDataNode t.target = none

/-- From the stage an attempt that fails is reached. -/
def Stage.Fails (S : Stage) (f : Fault) (d' : Draft) : Prop :=
  ∃ ms S' m f', Run S ms S' ∧ Breaks S' m f' d' ∧ f = f'.locate m.trace

theorem Stage.Fails.after {S S' : Stage} {ms : List Move} {f : Fault} {d' : Draft}
    (h : S'.Fails f d') (hr : Run S ms S') : S.Fails f d' := by
  obtain ⟨ms', S'', m, f', hr', hb, hf⟩ := h
  exact ⟨ms ++ ms', S'', m, f', hr.append hr', hb, hf⟩

theorem Edit.ends_self {α : Type} (e : Edit α) (d : Draft) :
    Ends e d (fun a d' => e.perform d = (.ok a, d')) fun f d' => e.perform d = (.error f, d') :=
  ends_iff.2 ⟨fun _ _ h => h, fun _ _ h => h⟩

/-- A pass through the uses `rest`, of which `kept` were put off before: those of `done` are carried out,
and `left` are the ones that were put off. -/
inductive UsesPass : List UsesTask → List UsesTask → Draft → List UsesTask → List UsesTask → Draft → Prop
  | nil (kept : List UsesTask) (d : Draft) : UsesPass kept [] d [] kept d
  | applied {kept rest done left : List UsesTask} {t : UsesTask} {d d₁ d₂ : Draft}
    (h : (t.attempt ((kept ++ rest).flatMap UsesTask.occupies)).perform d = (.ok .applied, d₁))
    (h' : UsesPass kept rest d₁ done left d₂) : UsesPass kept (t :: rest) d (t :: done) left d₂
  | putOff {kept rest done left : List UsesTask} {t : UsesTask} {d d₁ : Draft}
    (h : t.Waits ((kept ++ rest).flatMap UsesTask.occupies) d)
    (h' : UsesPass (kept ++ [t]) rest d done left d₁) : UsesPass kept (t :: rest) d done left d₁

namespace UsesPass

variable {kept rest done left : List UsesTask} {d d' : Draft}

theorem run (h : UsesPass kept rest d done left d') (augments : List AugmentTask) :
    Run ⟨kept ++ rest, augments, d⟩ (done.map .expand) ⟨left, augments, d'⟩ := by
  induction h with
  | nil =>
    rw [List.append_nil]
    exact .nil _
  | applied h _ ih => exact .cons (.expand h) ih
  | @putOff kept rest _ _ t _ _ _ _ ih =>
    rw [List.append_assoc, List.singleton_append] at ih
    exact ih

/-- In a pass that carries out nothing every task waits. -/
theorem waits_of_done (h : UsesPass kept rest d [] left d') : ∀ pre t post, rest = pre ++ t :: post →
    t.Waits ((kept ++ pre ++ post).flatMap UsesTask.occupies) d := by
  generalize hdone : ([] : List UsesTask) = done at h
  induction h with
  | nil =>
    intro pre t post hl
    simp at hl
  | applied => cases hdone
  | putOff hwaits _ ih =>
    intro pre u post hl
    rcases List.cons_eq_append_iff.1 hl with ⟨rfl, hpost⟩ | ⟨pre', rfl, hrest⟩
    · cases hpost
      simpa using hwaits
    · simpa using ih hdone pre' u post hrest

end UsesPass

theorem ends_expandPass (augments : List AugmentTask) (rest : List UsesTask) :
    ∀ (kept : List UsesTask) (d : Draft), Stage.Ready ⟨kept ++ rest, augments, d⟩ →
      Ends (expandPass kept rest) d (fun left d' => ∃ done, UsesPass kept rest d done left d')
        fun f d' => Stage.Fails ⟨kept ++ rest, augments, d⟩ f d' := by
  induction rest with
  | nil =>
    intro kept d _
    rw [expandPass, ends_pure]
    exact ⟨[], .nil kept d⟩
  | cons t rest ih =>
    intro kept d hS
    rw [expandPass, ends_bind, ends_located]
    have hspec := UsesTask.ends_attempt hS.sound (hS.fits t (by simp))
      ((kept ++ rest).flatMap UsesTask.occupies)
    refine ((Edit.ends_self _ d).and hspec).mono ?_ ?_
    · rintro (_ | _) d' ⟨hperform, h⟩
      · -- carried out
        have hstep : Step ⟨kept ++ t :: rest, augments, d⟩ (.expand t) ⟨kept ++ rest, augments, d'⟩ :=
          .expand hperform
        refine (ih kept d' (hstep.ready hS)).mono ?_ fun f d'' hf => hf.after (.cons hstep (.nil _))
        rintro left d'' ⟨done, hpass⟩
        exact ⟨t :: done, .applied hperform hpass⟩
      · -- put off
        obtain ⟨hw, rfl⟩ := h
        have happend : kept ++ [t] ++ rest = kept ++ t :: rest := by simp
        rw [← happend] at hS ⊢
        refine (ih (kept ++ [t]) d' hS).mono ?_ fun f d'' hf => hf
        rintro left d'' ⟨done, hpass⟩
        exact ⟨done, .putOff hw hpass⟩
    · rintro f d' ⟨hperform, -⟩
      exact ⟨[], _, .expand t, f, .nil _, .expand hperform, rfl⟩

/-- The augmentation is held back in a pass in which `kept` were put off before. -/
def AugmentTask.Held (t : AugmentTask) (uses : List UsesTask) (kept : List AugmentTask) (d : Draft) :
    Prop :=
  (∃ u ∈ kept, u.target = t.target) ∨ t.isWaiting uses = true ∨ d.findDataNode t.target = none

/-- What is not seen to be held back comes before the others with its target, and waits for no uses. -/
theorem AugmentTask.not_held {t : AugmentTask} {uses : List UsesTask} {kept : List AugmentTask}
    (h : ¬ (kept.any (·.target == t.target) || t.isWaiting uses) = true) :
    (∀ u ∈ kept, u.target ≠ t.target) ∧ t.isWaiting uses = false := by
  rw [Bool.or_eq_true, not_or] at h
  obtain ⟨hfirst, hwait⟩ := h
  refine ⟨fun u hu heq => hfirst (List.any_eq_true.2 ⟨u, hu, ?_⟩), Bool.eq_false_iff.2 hwait⟩
  simpa using heq

/-- A pass through the augmentations `rest`, of which `kept` were put off before: those of `done` are
merged, and `left` are the ones that were put off. -/
inductive AugmentPass (uses : List UsesTask) :
    List AugmentTask → List AugmentTask → Draft → List AugmentTask → List AugmentTask → Draft → Prop
  | nil (kept : List AugmentTask) (d : Draft) : AugmentPass uses kept [] d [] kept d
  | applied {kept rest done left : List AugmentTask} {t : AugmentTask} {d d₁ d₂ : Draft}
    (hfirst : ∀ u ∈ kept, u.target ≠ t.target) (hwait : t.isWaiting uses = false)
    (h : t.attempt.perform d = (.ok .applied, d₁)) (h' : AugmentPass uses kept rest d₁ done left d₂) :
    AugmentPass uses kept (t :: rest) d (t :: done) left d₂
  | putOff {kept rest done left : List AugmentTask} {t : AugmentTask} {d d₁ : Draft}
    (h : t.Held uses kept d) (h' : AugmentPass uses (kept ++ [t]) rest d done left d₁) :
    AugmentPass uses kept (t :: rest) d done left d₁

namespace AugmentPass

variable {uses : List UsesTask} {kept rest done left : List AugmentTask} {d d' : Draft}

theorem run (h : AugmentPass uses kept rest d done left d') :
    Run ⟨uses, kept ++ rest, d⟩ (done.map .merge) ⟨uses, left, d'⟩ := by
  induction h with
  | nil =>
    rw [List.append_nil]
    exact .nil _
  | applied hfirst hwait h _ ih => exact .cons (.merge hfirst hwait h) ih
  | @putOff kept rest _ _ t _ _ _ _ ih =>
    rw [List.append_assoc, List.singleton_append] at ih
    exact ih

/-- In a pass that merges nothing every augmentation is held back. -/
theorem held_of_done (h : AugmentPass uses kept rest d [] left d') :
    ∀ pre t post, rest = pre ++ t :: post → t.Held uses (kept ++ pre) d := by
  generalize hdone : ([] : List AugmentTask) = done at h
  induction h with
  | nil =>
    intro pre t post hl
    simp at hl
  | applied => cases hdone
  | putOff hheld _ ih =>
    intro pre u post hl
    rcases List.cons_eq_append_iff.1 hl with ⟨rfl, hpost⟩ | ⟨pre', rfl, hrest⟩
    · cases hpost
      simpa using hheld
    · simpa using ih hdone pre' u post hrest

end AugmentPass

theorem ends_augmentPass (uses : List UsesTask) (rest : List AugmentTask) :
    ∀ (kept : List AugmentTask) (d : Draft), Stage.Ready ⟨uses, kept ++ rest, d⟩ →
      Ends (augmentPass uses kept rest) d (fun left d' => ∃ done, AugmentPass uses kept rest d done left d')
        fun f d' => Stage.Fails ⟨uses, kept ++ rest, d⟩ f d' := by
  induction rest with
  | nil =>
    intro kept d _
    rw [augmentPass, ends_pure]
    exact ⟨[], .nil kept d⟩
  | cons t rest ih =>
    intro kept d hS
    have hput : t.Held uses kept d → Ends (augmentPass uses (kept ++ [t]) rest) d
        (fun left d' => ∃ done, AugmentPass uses kept (t :: rest) d done left d')
        fun f d' => Stage.Fails ⟨uses, kept ++ t :: rest, d⟩ f d' := by
      intro hheld
      have happend : kept ++ [t] ++ rest = kept ++ t :: rest := by simp
      rw [← happend] at hS ⊢
      refine (ih (kept ++ [t]) d hS).mono ?_ fun f d'' hf => hf
      rintro left d'' ⟨done, hpass⟩
      exact ⟨done, .putOff hheld hpass⟩
    rw [augmentPass]
    split
    · next hheld =>
      rw [ends_bind, ends_pure]
      refine hput ?_
      rcases Bool.or_eq_true _ _ ▸ hheld with h | h
      · exact .inl (by simpa using h)
      · exact .inr (.inl h)
    · next hheld =>
      obtain ⟨hfirst, hwait⟩ := AugmentTask.not_held hheld
      rw [ends_bind, ends_located]
      refine ((Edit.ends_self _ d).and (AugmentTask.ends_attempt hS.sound)).mono ?_ ?_
      · rintro (_ | _) d' ⟨hperform, h⟩
        · -- merged
          have hstep : Step ⟨uses, kept ++ t :: rest, d⟩ (.merge t) ⟨uses, kept ++ rest, d'⟩ :=
            .merge hfirst hwait hperform
          refine (ih kept d' (hstep.ready hS)).mono ?_ fun f d'' hf => hf.after (.cons hstep (.nil _))
          rintro left d'' ⟨done, hpass⟩
          exact ⟨t :: done, .applied hfirst hwait hperform hpass⟩
        · -- the target is not there
          obtain ⟨hnone, rfl⟩ := h
          exact hput (.inr (.inr hnone))
      · rintro f d' ⟨hperform, -⟩
        exact ⟨[], _, .merge t, f, .nil _, .merge hfirst hwait hperform, rfl⟩

/-- A run in passes: the uses in turn, then augmentations, and again. -/
inductive Passes : Stage → List Move → Stage → Prop
  | nil (S : Stage) : Passes S [] S
  | cons {S S' S'' : Stage} {done left : List UsesTask} {d : Draft} {ms ms' : List Move}
    (huses : UsesPass [] S.uses S.draft done left d) (h : Run ⟨left, S.augments, d⟩ ms S')
    (hleft : S'.uses = left) (h' : Passes S' ms' S'') : Passes S (done.map .expand ++ ms ++ ms') S''

theorem Passes.run {S S' : Stage} {ms : List Move} (h : Passes S ms S') : Run S ms S' := by
  induction h with
  | nil => exact .nil _
  | cons huses h _ _ ih => exact ((huses.run _).append h).append ih

/-- The tasks are carried out in passes, up to where all is held back or an attempt fails. -/
theorem ends_settle (uses : List UsesTask) (augments : List AugmentTask) (d : Draft)
    (hS : Stage.Ready ⟨uses, augments, d⟩) :
    Ends (settle uses augments) d (fun left d' =>
      (∃ ms, Passes ⟨uses, augments, d⟩ ms ⟨left.1, left.2, d'⟩) ∧ Stage.Stuck ⟨left.1, left.2, d'⟩)
      fun f d' => Stage.Fails ⟨uses, augments, d⟩ f d' := by
  induction hn : uses.length + augments.length using Nat.strong_induction_on generalizing
    uses augments d with
  | _ n ih =>
    rw [settle, ends_bind]
    refine (ends_expandPass augments uses [] d hS).mono ?_ fun f d' h => h
    rintro uses' d₁ ⟨done, hpass⟩
    have hr₁ : Run ⟨uses, augments, d⟩ (done.map .expand) ⟨uses', augments, d₁⟩ := hpass.run augments
    have hS₁ := hr₁.ready hS
    rw [ends_bind]
    refine (ends_augmentPass uses' augments [] d₁ hS₁).mono ?_ fun f d' h => h.after hr₁
    rintro augments' d₂ ⟨done₂, hpass₂⟩
    have hr₂ : Run ⟨uses', augments, d₁⟩ (done₂.map .merge) ⟨uses', augments', d₂⟩ := hpass₂.run
    have hlen := (hr₁.append hr₂).length
    simp only at hlen
    split
    · next hlt =>
      refine (ih _ (hn ▸ hlt) uses' augments' d₂ (hr₂.ready hS₁) rfl).mono ?_ fun f d' h =>
        h.after (hr₁.append hr₂)
      rintro left d' ⟨⟨ms, hr⟩, hstuck⟩
      exact ⟨⟨_, .cons hpass hr₂ rfl hr⟩, hstuck⟩
    · next hle =>
      -- nothing was carried out
      rw [ends_pure]
      obtain ⟨hms, hSS⟩ := (hr₁.append hr₂).eq_of_length (by simp only; omega)
      obtain ⟨hdone, hdone₂⟩ := List.append_eq_nil_iff.1 hms
      obtain rfl := List.map_eq_nil_iff.1 hdone
      obtain rfl := List.map_eq_nil_iff.1 hdone₂
      cases hr₁
      cases hr₂
      refine ⟨⟨[], .nil _⟩, fun pre t post hl => ?_, fun pre t post hl => ?_⟩
      · simpa using hpass.waits_of_done pre t post hl
      · exact hpass₂.held_of_done pre t post hl

end YangSchema
