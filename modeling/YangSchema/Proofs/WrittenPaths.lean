import Mathlib.Data.List.Forall2
import Mathlib.Data.List.TakeWhile
import YangSchema.PathExpr
import YangSchema.Proofs.Declaration.Targets

/-!
# How paths are written

The texts of paths are described by a grammar of their own (`IsPath`): steps with a slash between each
two, perhaps one in front; a step is a name, or a prefix and a name with a colon between them.  A text is
read exactly if it is such a path with blanks around it, and what is read is the one path that is written
so (`PathExpr.parse_eq_ok`).  So reading gives back every path that can be written.
-/

namespace YangSchema

/-! ## The grammar -/

def IsLetter (c : Char) : Prop := ('a' ≤ c ∧ c ≤ 'z') ∨ ('A' ≤ c ∧ c ≤ 'Z')

def IsDigit (c : Char) : Prop := '0' ≤ c ∧ c ≤ '9'

/-- A letter or an underscore, and then letters, digits, underscores, hyphens and dots. -/
def IsName (n : List Char) : Prop :=
  ∃ c s, n = c :: s ∧ (IsLetter c ∨ c = '_') ∧
    ∀ d ∈ s, IsLetter d ∨ IsDigit d ∨ d = '_' ∨ d = '-' ∨ d = '.'

/-- A name, or a prefix and a name. -/
inductive IsStep : List Char → Prop
  | name {n : List Char} (hn : IsName n) : IsStep n
  | qualified {q n : List Char} (hq : IsName q) (hn : IsName n) : IsStep (q ++ ':' :: n)

/-- One step or more, with a slash between each two. -/
inductive AreSteps : List Char → Prop
  | last {s : List Char} (hs : IsStep s) : AreSteps s
  | next {s t : List Char} (hs : IsStep s) (ht : AreSteps t) : AreSteps (s ++ '/' :: t)

/-- A relative path, or an absolute one. -/
inductive IsPath : List Char → Prop
  | relative {t : List Char} (ht : AreSteps t) : IsPath t
  | absolute {t : List Char} (ht : AreSteps t) : IsPath ('/' :: t)

/-- `t` is what is left of `s` without the blanks at its two ends. -/
def Text.Trims (s t : List Char) : Prop :=
  (∃ before after, s = before ++ t ++ after ∧ ∀ c ∈ before ++ after, isBlank c = true) ∧
    (∀ c ∈ t.head?, isBlank c = false) ∧ ∀ c ∈ t.getLast?, isBlank c = false

/-- The names of the step are names. -/
def PathStep.IsWritten (s : PathStep) : Prop :=
  (∀ q, s.qualifier = some q → IsName q.toList) ∧ IsName s.localName.toList

/-- A path that can be written: it has steps, and their names are names. -/
def PathExpr.IsWritten (e : PathExpr) : Prop := e.steps ≠ [] ∧ ∀ s ∈ e.steps, s.IsWritten

/-! ## Names -/

section

variable {c : Char} {n s t : List Char}

theorem isLetter_iff : IsLetter c ↔ c.isAlpha = true := by
  show _ ↔ (decide ('A' ≤ c ∧ c ≤ 'Z') || (decide ('a' ≤ c) && decide (c ≤ 'z'))) = true
  simp only [IsLetter, Bool.or_eq_true, Bool.and_eq_true, decide_eq_true_eq]
  exact or_comm

theorem isDigit_iff : IsDigit c ↔ c.isDigit = true := by
  show _ ↔ (decide ('0' ≤ c) && decide (c ≤ '9')) = true
  simp only [IsDigit, Bool.and_eq_true, decide_eq_true_eq]

theorem isIdentifier_iff : isIdentifier n = true ↔ IsName n := by
  cases n with
  | nil => exact iff_of_false (by decide) (by rintro ⟨_, _, ⟨⟩, -⟩)
  | cons c s =>
    have hstart : isIdentifierStart c = true ↔ IsLetter c ∨ c = '_' := by
      simp [isIdentifierStart, isLetter_iff]
    have hpart : ∀ d, isIdentifierPart d = true ↔
        IsLetter d ∨ IsDigit d ∨ d = '_' ∨ d = '-' ∨ d = '.' := by
      intro d
      show ((d.isAlpha || d.isDigit) || d == '_' || d == '-' || d == '.') = true ↔ _
      simp [isLetter_iff, isDigit_iff, or_assoc]
    simp only [isIdentifier, Bool.and_eq_true, List.all_eq_true, hstart, hpart]
    constructor
    · rintro ⟨hc, hs⟩
      exact ⟨c, s, rfl, hc, hs⟩
    · rintro ⟨_, _, ⟨⟩, hc, hs⟩
      exact ⟨hc, hs⟩

theorem IsName.ne_nil (h : IsName n) : n ≠ [] := by
  obtain ⟨c, s, rfl, -⟩ := h
  exact List.cons_ne_nil c s

theorem isBlank_eq_false (h : 33 ≤ c.toNat ∧ c.toNat ≤ 126) : Text.isBlank c = false := by
  simp only [Text.isBlank, Bool.or_eq_false_iff, Bool.and_eq_false_iff, decide_eq_false_iff_not,
    beq_eq_false_iff_ne]
  omega

theorem IsLetter.toNat (h : IsLetter c) :
    (97 ≤ c.toNat ∧ c.toNat ≤ 122) ∨ (65 ≤ c.toNat ∧ c.toNat ≤ 90) := h

theorem IsDigit.toNat (h : IsDigit c) : 48 ≤ c.toNat ∧ c.toNat ≤ 57 := h

/-- What stands in a name can be told from blanks, slashes and colons. -/
theorem IsName.of_mem (h : IsName n) (hc : c ∈ n) : Text.isBlank c = false ∧ c ≠ '/' ∧ c ≠ ':' := by
  have hpart : IsLetter c ∨ IsDigit c ∨ c = '_' ∨ c = '-' ∨ c = '.' := by
    obtain ⟨d, s, rfl, hd, hs⟩ := h
    rcases List.mem_cons.1 hc with rfl | hc
    · exact hd.elim .inl fun hd => .inr (.inr (.inl hd))
    · exact hs c hc
  have hslash : '/'.toNat = 47 := rfl
  have hcolon : ':'.toNat = 58 := rfl
  rcases hpart with hletter | hdigit | rfl | rfl | rfl
  · have hrange := hletter.toNat
    exact ⟨isBlank_eq_false (by omega), by rintro rfl; omega, by rintro rfl; omega⟩
  · have hrange := hdigit.toNat
    exact ⟨isBlank_eq_false (by omega), by rintro rfl; omega, by rintro rfl; omega⟩
  all_goals decide

end

/-! ## Blanks and separators -/

namespace Text

variable {s t : List Char} {sep : Char} {p : Char → Bool}

theorem dropWhile_eq_self (h : ∀ c ∈ s.head?, p c = false) : s.dropWhile p = s := by
  cases s with
  | nil => rfl
  | cons c s => rw [List.dropWhile_cons_of_neg (by simp [h c rfl])]

theorem head?_dropWhile : ∀ c ∈ (s.dropWhile p).head?, p c = false := by
  intro c hc
  have hnot := List.head?_dropWhile_not p s
  rw [Option.mem_def.1 hc] at hnot
  exact hnot

theorem trims_trim (s : List Char) : Trims s (trim s) := by
  have hs : s.takeWhile isBlank ++ s.dropWhile isBlank = s := List.takeWhile_append_dropWhile
  have hfirst := head?_dropWhile (s := s) (p := isBlank)
  unfold trim
  generalize s.dropWhile isBlank = m at hs hfirst ⊢
  have hm : (m.reverse.dropWhile isBlank).reverse ++ (m.reverse.takeWhile isBlank).reverse = m := by
    rw [← List.reverse_append, List.takeWhile_append_dropWhile, List.reverse_reverse]
  refine ⟨⟨s.takeWhile isBlank, (m.reverse.takeWhile isBlank).reverse, ?_, fun c hc => ?_⟩, ?_, ?_⟩
  · rw [List.append_assoc, hm, hs]
  · rcases List.mem_append.1 hc with hc | hc
    · exact List.mem_takeWhile_imp hc
    · exact List.mem_takeWhile_imp (List.mem_reverse.1 hc)
  · -- the first character is that of the text without the blanks in front of it
    intro c hc
    refine hfirst c ?_
    rw [← hm, List.head?_append, Option.mem_def.1 hc]
    rfl
  · rw [List.getLast?_reverse]
    exact head?_dropWhile

theorem trim_eq_iff : trim s = t ↔ Trims s t := by
  constructor
  · rintro rfl
    exact trims_trim s
  · rintro ⟨⟨before, after, rfl, hblank⟩, hhead, hlast⟩
    have hbefore : ∀ c ∈ before, isBlank c = true := fun c hc => hblank c (by simp [hc])
    have hafter : ∀ c ∈ after, isBlank c = true := fun c hc => hblank c (by simp [hc])
    unfold trim
    rw [List.append_assoc, List.dropWhile_append_of_pos hbefore]
    cases t with
    | nil =>
      rw [List.nil_append, List.dropWhile_eq_nil_iff.2 hafter]
      rfl
    | cons c t =>
      have hkeep : (c :: t ++ after).dropWhile isBlank = c :: t ++ after :=
        dropWhile_eq_self (by simpa using hhead)
      rw [hkeep, List.reverse_append, List.dropWhile_append_of_pos (by simpa using hafter),
        dropWhile_eq_self (by simpa only [List.head?_reverse] using hlast), List.reverse_reverse]

/-- What is joined by separators is cut at them. -/
theorem fields_intercalate {fs : List (List Char)} (hne : fs ≠ []) (hfs : ∀ f ∈ fs, sep ∉ f) :
    fields sep ([sep].intercalate fs) = fs := by
  have hcut : ∀ s, fields sep s = s.splitOn sep := by
    intro s
    conv_rhs => rw [← intercalate_fields sep s]
    exact (List.splitOn_intercalate sep (fun f hf => not_mem_of_mem_fields hf)
      (fieldsBy_ne_nil _ s)).symm
  rw [hcut, List.splitOn_intercalate sep hfs hne]

end Text

/-! ## Steps -/

namespace PathStep

variable {s : PathStep} {text : String} {step : List Char}

theorem toList_render (s : PathStep) : s.render.toList =
    (s.qualifier.map fun q => q.toList ++ [':']).getD [] ++ s.localName.toList := by
  unfold render
  cases s.qualifier <;> simp

theorem IsWritten.of_mem_render (h : s.IsWritten) {c : Char} (hc : c ∈ s.render.toList) :
    Text.isBlank c = false ∧ c ≠ '/' := by
  rw [toList_render, List.mem_append] at hc
  rcases hc with hc | hc
  · cases hq : s.qualifier with
    | none => simp [hq] at hc
    | some q =>
      simp only [hq, Option.map_some, Option.getD_some, List.mem_append, List.mem_singleton] at hc
      rcases hc with hc | rfl
      · exact ((h.1 q hq).of_mem hc).imp_right And.left
      · decide
  · exact (h.2.of_mem hc).imp_right And.left

theorem IsWritten.cut_render (h : s.IsWritten) : Text.cut ':' s.render.toList =
    s.qualifier.map fun q => (q.toList, s.localName.toList) := by
  rw [toList_render]
  cases hq : s.qualifier with
  | none =>
    refine Text.cut_eq_none_iff.2 fun hc => (h.2.of_mem (c := ':') ?_).2.2 rfl
    simpa using hc
  | some q =>
    have hcolon : ':' ∉ q.toList := fun hc => ((h.1 q hq).of_mem hc).2.2 rfl
    simpa using Text.cut_append s.localName.toList hcolon

theorem parse_eq_ok : parse text step = .ok s ↔ s.IsWritten ∧ s.render.toList = step := by
  unfold parse
  dsimp only
  constructor
  · intro h
    split at h
    · next q n hcut =>
      split at h
      · next hq =>
        split at h
        · next hn =>
          cases h
          refine ⟨⟨fun q' hq' => ?_, ?_⟩, ?_⟩
          · cases hq'
            simpa [isIdentifier_iff] using hq
          · simpa [isIdentifier_iff] using hn
          · simpa [toList_render] using (Text.eq_append_of_cut hcut).1.symm
        · cases h
      · cases h
    · next hcut =>
      split at h
      · next hn =>
        cases h
        exact ⟨⟨by rintro _ ⟨⟩, by simpa [isIdentifier_iff] using hn⟩, by simp [toList_render]⟩
      · cases h
  · rintro ⟨hs, rfl⟩
    obtain ⟨q, n⟩ := s
    rw [hs.cut_render]
    have hn := isIdentifier_iff.2 hs.2
    cases q with
    | none => simp [toList_render, hn]
    | some q =>
      have hq := isIdentifier_iff.2 (hs.1 q rfl)
      simp [hn, hq]

end PathStep

/-! ## Paths -/

namespace PathExpr

variable {e : PathExpr} {text : String} {t body : List Char} {steps : List PathStep}

/-- The steps with a slash between each two. -/
def joined (steps : List PathStep) : List Char :=
  ['/'].intercalate (steps.map fun s => s.render.toList)

theorem isStep_iff : IsStep t ↔ ∃ s : PathStep, s.IsWritten ∧ s.render.toList = t := by
  constructor
  · intro h
    cases h with
    | name hn =>
      exact ⟨⟨none, String.ofList t⟩, ⟨by rintro _ ⟨⟩, by simpa using hn⟩,
        by simp [PathStep.toList_render]⟩
    | @qualified q n hq hn =>
      refine ⟨⟨some (String.ofList q), String.ofList n⟩, ⟨?_, by simpa using hn⟩,
        by simp [PathStep.toList_render]⟩
      rintro _ ⟨⟩
      simpa using hq
  · rintro ⟨⟨q, n⟩, ⟨hq, hn⟩, rfl⟩
    rw [PathStep.toList_render]
    cases q with
    | none => exact .name hn
    | some q => simpa using IsStep.qualified (hq q rfl) hn

theorem areSteps_iff : AreSteps t ↔
    ∃ steps, (steps ≠ [] ∧ ∀ s ∈ steps, s.IsWritten) ∧ joined steps = t := by
  constructor
  · intro h
    induction h with
    | last hstep =>
      obtain ⟨s, hs, rfl⟩ := isStep_iff.1 hstep
      exact ⟨[s], ⟨List.cons_ne_nil _ _, by simpa using hs⟩, by simp [joined]⟩
    | next hstep _ ih =>
      obtain ⟨s, hs, rfl⟩ := isStep_iff.1 hstep
      obtain ⟨steps, ⟨hne, hsteps⟩, rfl⟩ := ih
      refine ⟨s :: steps, ⟨List.cons_ne_nil _ _, List.forall_mem_cons.2 ⟨hs, hsteps⟩⟩, ?_⟩
      rw [joined, List.map_cons, List.intercalate_cons_of_ne_nil (by simpa using hne)]
      simp [joined]
  · rintro ⟨steps, ⟨hne, hsteps⟩, rfl⟩
    induction steps with
    | nil => exact absurd rfl hne
    | cons s steps ih =>
      obtain ⟨hs, hsteps⟩ := List.forall_mem_cons.1 hsteps
      have hstep : IsStep s.render.toList := isStep_iff.2 ⟨s, hs, rfl⟩
      cases steps with
      | nil => simpa [joined] using AreSteps.last hstep
      | cons s' steps =>
        have hrest := ih (List.cons_ne_nil _ _) hsteps
        rw [joined, List.map_cons, List.intercalate_cons_of_ne_nil (by simp)]
        simpa [joined] using AreSteps.next hstep hrest

theorem toList_render (e : PathExpr) : e.render.toList =
    (if e.absolute && !e.steps.isEmpty then ['/'] else []) ++ joined e.steps := by
  unfold render joined
  rw [String.toList_append, String.toList_intercalate, List.map_map]
  split <;> rfl

theorem isPath_iff : IsPath t ↔ ∃ e : PathExpr, e.IsWritten ∧ e.render.toList = t := by
  constructor
  · intro h
    cases h with
    | relative ht =>
      obtain ⟨steps, hsteps, rfl⟩ := areSteps_iff.1 ht
      exact ⟨⟨false, steps⟩, hsteps, by simp [toList_render]⟩
    | absolute ht =>
      obtain ⟨steps, hsteps, rfl⟩ := areSteps_iff.1 ht
      exact ⟨⟨true, steps⟩, hsteps, by simp [toList_render, hsteps.1]⟩
  · rintro ⟨⟨absolute, steps⟩, hsteps, rfl⟩
    have hjoined : AreSteps (joined steps) := areSteps_iff.2 ⟨steps, hsteps, rfl⟩
    rw [toList_render]
    cases absolute with
    | false => simpa using IsPath.relative hjoined
    | true => simpa [hsteps.1] using IsPath.absolute hjoined

theorem exists_cons_of_isStep (h : IsStep t) : ∃ c s, t = c :: s ∧
    ∀ d ∈ c :: s, Text.isBlank d = false ∧ d ≠ '/' := by
  obtain ⟨s, hs, rfl⟩ := isStep_iff.1 h
  have hne : s.render.toList ≠ [] := by
    rw [PathStep.toList_render]
    exact List.append_ne_nil_of_right_ne_nil _ hs.2.ne_nil
  obtain ⟨c, r, hr⟩ := List.exists_cons_of_ne_nil hne
  exact ⟨c, r, hr, fun d hd => hs.of_mem_render (hr ▸ hd)⟩

/-- Nothing in the steps is blank, and they do not begin with a slash. -/
theorem exists_cons_of_areSteps (h : AreSteps t) : ∃ c s, t = c :: s ∧ c ≠ '/' ∧
    ∀ d ∈ c :: s, Text.isBlank d = false := by
  induction h with
  | last hstep =>
    obtain ⟨c, s, rfl, hs⟩ := exists_cons_of_isStep hstep
    exact ⟨c, s, rfl, (hs c List.mem_cons_self).2, fun d hd => (hs d hd).1⟩
  | @next _ t hstep _ ih =>
    obtain ⟨c, s, rfl, hs⟩ := exists_cons_of_isStep hstep
    obtain ⟨c', s', rfl, -, hs'⟩ := ih
    refine ⟨c, s ++ '/' :: c' :: s', rfl, (hs c List.mem_cons_self).2, fun d hd => ?_⟩
    rw [← List.cons_append] at hd
    rcases List.mem_append.1 hd with hd | hd
    · exact (hs d hd).1
    · rcases List.mem_cons.1 hd with rfl | hd
      · decide
      · exact hs' d hd

theorem IsWritten.of_mem_render (he : e.IsWritten) {c : Char} (hc : c ∈ e.render.toList) :
    Text.isBlank c = false := by
  obtain ⟨d, s, hcons, -, hblank⟩ := exists_cons_of_areSteps (areSteps_iff.2 ⟨e.steps, he, rfl⟩)
  rw [toList_render, hcons, List.mem_append] at hc
  rcases hc with hc | hc
  · split at hc
    · rw [List.mem_singleton.1 hc]
      decide
    · cases hc
  · exact hblank c hc

/-- The steps are read as they are written. -/
theorem mapM_parse_eq_ok : (Text.fields '/' body).mapM (PathStep.parse text) = .ok steps ↔
    (steps ≠ [] ∧ ∀ s ∈ steps, s.IsWritten) ∧ joined steps = body := by
  constructor
  · intro h
    have hall := forall₂_of_mapM_ok h
    simp only [PathStep.parse_eq_ok] at hall
    have hfields : steps.map (fun s => s.render.toList) = Text.fields '/' body :=
      List.forall₂_eq_eq_eq ▸ List.forall₂_map_left_iff.2 (hall.flip.imp fun _ _ h => h.2)
    refine ⟨⟨?_, fun s hs => ?_⟩, ?_⟩
    · rintro rfl
      exact Text.fieldsBy_ne_nil _ _ hfields.symm
    · obtain ⟨_, -, hs, -⟩ := exists_of_forall₂_right hall hs
      exact hs
    · rw [joined, hfields, Text.intercalate_fields]
  · rintro ⟨⟨hne, hsteps⟩, rfl⟩
    rw [joined, Text.fields_intercalate (by simpa using hne)]
    · refine mapM_ok_of_forall₂ (List.forall₂_map_left_iff.2 (List.forall₂_same.2 fun s hs => ?_))
      exact PathStep.parse_eq_ok.2 ⟨hsteps s hs, rfl⟩
    · intro f hf
      obtain ⟨s, hs, rfl⟩ := List.mem_map.1 hf
      exact fun hslash => ((hsteps s hs).of_mem_render hslash).2 rfl

/-- What is read of the part of a path after the first slash, or of the whole of a relative path. -/
theorem readSteps_eq_ok {absolute : Bool} : ((if body.isEmpty then
      .error (.malformed (.emptyPath text))
    else do
      let steps ← (Text.fields '/' body).mapM (PathStep.parse text)
      return ⟨absolute, steps⟩) : Except Fault PathExpr) = .ok e ↔
    e.absolute = absolute ∧ e.IsWritten ∧ joined e.steps = body := by
  split
  · next hempty =>
    refine iff_of_false (by rintro ⟨⟩) ?_
    rintro ⟨-, he, hbody⟩
    obtain ⟨c, s, hcons, -⟩ := exists_cons_of_areSteps (areSteps_iff.2 ⟨e.steps, he, hbody⟩)
    simp [hcons] at hempty
  · rw [bind_eq_ok]
    constructor
    · rintro ⟨steps, hsteps, ⟨⟩⟩
      exact ⟨rfl, mapM_parse_eq_ok.1 hsteps⟩
    · rintro ⟨rfl, hsteps⟩
      exact ⟨e.steps, mapM_parse_eq_ok.2 hsteps, rfl⟩

/-- A text is read as the path that is written so, but for the blanks around it. -/
theorem parse_eq_ok : parse text = .ok e ↔ e.IsWritten ∧ e.render.toList = Text.trim text.toList := by
  have hfirst : e.IsWritten → ∃ c s, joined e.steps = c :: s ∧ c ≠ '/' := by
    intro he
    obtain ⟨c, s, hs, hc, -⟩ := exists_cons_of_areSteps (areSteps_iff.2 ⟨e.steps, he, rfl⟩)
    exact ⟨c, s, hs, hc⟩
  rw [toList_render]
  unfold parse
  generalize Text.trim text.toList = t
  split
  next absolute body hbody =>
  rw [readSteps_eq_ok]
  split at hbody <;> cases hbody
  · -- only an absolute path begins with a slash
    constructor
    · rintro ⟨ha, he, rfl⟩
      exact ⟨he, by simp [ha, he.1]⟩
    · rintro ⟨he, ht⟩
      obtain ⟨c, s, hs, hc⟩ := hfirst he
      cases ha : e.absolute with
      | false =>
        simp only [ha, Bool.false_and, Bool.false_eq_true, if_false, List.nil_append, hs,
          List.cons.injEq] at ht
        exact absurd ht.1 hc
      | true => exact ⟨rfl, he, by simpa [ha, he.1] using ht⟩
  · next hslash =>
    constructor
    · rintro ⟨ha, he, rfl⟩
      exact ⟨he, by simp [ha]⟩
    · rintro ⟨he, ht⟩
      cases ha : e.absolute with
      | false => exact ⟨rfl, he, by simpa [ha] using ht⟩
      | true =>
        simp only [ha, Bool.true_and, List.isEmpty_eq_false_iff.2 he.1, Bool.not_false, if_true,
          List.singleton_append] at ht
        exact absurd ht.symm (hslash _)

/-- A text is read exactly if it is a path with blanks around it.  What is read is the path that is
written so, and every path that can be written is read again. -/
theorem parse_exact :
    (∀ text, (∃ e, parse text = .ok e) ↔ ∃ t, Text.Trims text.toList t ∧ IsPath t) ∧
    (∀ text e, parse text = .ok e ↔ e.IsWritten ∧ Text.Trims text.toList e.render.toList) ∧
    ∀ e, e.IsWritten → parse e.render = .ok e := by
  refine ⟨fun text => ?_, fun text e => ?_, fun e he => ?_⟩
  · simp only [parse_eq_ok, isPath_iff]
    constructor
    · rintro ⟨e, he, ht⟩
      exact ⟨_, Text.trims_trim _, e, he, ht⟩
    · rintro ⟨t, htrims, e, he, rfl⟩
      exact ⟨e, he, (Text.trim_eq_iff.2 htrims).symm⟩
  · rw [parse_eq_ok, ← Text.trim_eq_iff, eq_comm (a := Text.trim _)]
  · -- nothing in a written path is blank, so it has no blanks around it
    refine parse_eq_ok.2 ⟨he, (Text.trim_eq_iff.2 ⟨⟨[], [], by simp, by simp⟩, ?_, ?_⟩).symm⟩
    · intro c hc
      exact he.of_mem_render (List.mem_of_mem_head? hc)
    · intro c hc
      exact he.of_mem_render (List.mem_of_getLast? hc)

/-- The path `/m:a/b.1`. -/
def prefixedPath : PathExpr := ⟨true, [⟨some "m", "a"⟩, ⟨none, "b.1"⟩]⟩

theorem parse_exact_prefixedPath :
    prefixedPath.IsWritten ∧ parse prefixedPath.render = .ok prefixedPath ∧
      parse " /m:a/b.1\n" = .ok prefixedPath := by
  have hwritten : prefixedPath.IsWritten := by
    refine ⟨by decide, ?_⟩
    simp only [prefixedPath, PathStep.IsWritten, ← isIdentifier_iff]
    decide
  have htrims : Text.Trims " /m:a/b.1\n".toList prefixedPath.render.toList :=
    Text.trim_eq_iff.1 (by decide +kernel)
  exact ⟨hwritten, parse_exact.2.2 _ hwritten, (parse_exact.2.1 _ _).2 ⟨hwritten, htrims⟩⟩

end PathExpr

end YangSchema
