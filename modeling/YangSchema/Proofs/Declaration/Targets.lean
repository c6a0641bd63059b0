import YangSchema.Declaration.Module
import YangSchema.Proofs.Draft.Showing
import YangSchema.Proofs.Inference.Attempt

/-!
# The targets of declarations

A module-level augmentation names its target by an absolute path, and an augmentation inside a uses
by a relative one.  The texts of the two never agree, since a relative path starts with an identifier
(`Setting.relative_of_descendantPath`).
-/

namespace YangSchema

/-! ## Lists that are read -/

theorem exists_of_bind_eq_ok {α β ε : Type} {x : Except ε α} {f : α → Except ε β} {b : β}
    (h : x >>= f = .ok b) : ∃ a, x = .ok a ∧ f a = .ok b := by
  cases x with
  | error e => cases h
  | ok a => exact ⟨a, rfl, h⟩

theorem forall₂_of_mapM_ok {α β ε : Type} {f : α → Except ε β} {l : List α} {r : List β}
    (h : l.mapM f = .ok r) : List.Forall₂ (fun a b => f a = .ok b) l r := by
  induction l generalizing r with
  | nil =>
    cases h
    exact .nil
  | cons a l ih =>
    rw [List.mapM_cons] at h
    cases ha : f a with
    | error e =>
      rw [ha] at h
      cases h
    | ok b =>
      cases hl : l.mapM f with
      | error e =>
        rw [ha, hl] at h
        cases h
      | ok bs =>
        rw [ha, hl] at h
        cases h
        exact .cons ha (ih hl)

theorem mapM_ok_of_forall₂ {α β ε : Type} {f : α → Except ε β} {l : List α} {r : List β}
    (h : List.Forall₂ (fun a b => f a = .ok b) l r) : l.mapM f = .ok r := by
  induction h with
  | nil => rfl
  | cons hab _ ih =>
    rw [List.mapM_cons, hab, ih]
    rfl

/-! ## Written paths -/

theorem PathStep.isIdentifier_of_parse {text : String} {step : List Char} {s : PathStep}
    (h : parse text step = .ok s) : isIdentifier s.localName.toList = true := by
  have hnamed : ∀ {qualifier : Option String} {name : List Char} {f : Fault},
      (if isIdentifier name then .ok ⟨qualifier, String.ofList name⟩ else .error f :
        Except Fault PathStep) = .ok s → isIdentifier s.localName.toList = true := by
    intro qualifier name f h
    split at h
    · next hname =>
      cases h
      simpa using hname
    · cases h
  unfold parse at h
  dsimp only at h
  split at h
  · split at h
    · exact hnamed h
    · cases h
  · exact hnamed h

theorem PathExpr.steps_of_parse {text : String} {e : PathExpr} (h : parse text = .ok e) :
    e.steps ≠ [] ∧ ∀ s ∈ e.steps, isIdentifier s.localName.toList = true := by
  have hread : ∀ {absolute : Bool} {body : List Char} {f : Fault},
      (if body.isEmpty then .error f else do
        let steps ← (Text.fields '/' body).mapM (PathStep.parse text)
        return ⟨absolute, steps⟩ : Except Fault PathExpr) = .ok e →
      e.steps ≠ [] ∧ ∀ s ∈ e.steps, isIdentifier s.localName.toList = true := by
    intro absolute body f h
    split at h
    · cases h
    · cases hm : (Text.fields '/' body).mapM (PathStep.parse text) with
      | error f =>
        rw [hm] at h
        cases h
      | ok steps =>
        rw [hm] at h
        cases h
        have hall := forall₂_of_mapM_ok hm
        refine ⟨fun hnil => ?_, fun s hs => ?_⟩
        · obtain rfl : steps = [] := hnil
          exact Text.fieldsBy_ne_nil _ _ (List.forall₂_nil_right_iff.1 hall)
        · obtain ⟨step, -, hstep⟩ := exists_of_forall₂_right hall hs
          exact PathStep.isIdentifier_of_parse hstep
  unfold parse at h
  split at h
  next heq =>
  split at heq
  · cases heq
    exact hread h
  · cases heq
    exact hread h

theorem Prefixes.path_eq_ok {b : Prefixes} {e : PathExpr} {p : SchemaPath} (h : b.path e = .ok p) :
    p.absolute = e.absolute ∧ p.steps.map QName.localName = e.steps.map PathStep.localName := by
  unfold path at h
  cases hm : e.steps.mapM b.step with
  | error f =>
    rw [hm] at h
    cases h
  | ok steps =>
    rw [hm] at h
    cases h
    refine ⟨rfl, ?_⟩
    show steps.map _ = _
    have hall := forall₂_of_mapM_ok hm
    clear hm
    generalize e.steps = l at hall
    induction hall with
    | nil => rfl
    | @cons s q _ _ hs _ ih =>
      rw [List.map_cons, List.map_cons, ih]
      congr 1
      unfold step at hs
      cases hmod : b.moduleOf s.qualifier with
      | error f =>
        rw [hmod] at hs
        cases hs
      | ok m =>
        rw [hmod] at hs
        cases hs
        rfl

/-! ## The texts of targets -/

theorem SchemaPath.head?_render_of_absolute {p : SchemaPath} (h : p.absolute = true) :
    p.render.toList.head? = some '/' := by
  unfold render renderWith
  rw [h]
  split
  · rfl
  · show ("/" ++ _ : String).toList.head? = _
    rw [String.toList_append]
    rfl

theorem SchemaPath.head?_render_of_relative {p : SchemaPath} (h : p.absolute = false)
    {q : QName} {steps : List QName} (hp : p.steps = q :: steps)
    (hq : isIdentifier q.localName.toList = true) : p.render.toList.head? ≠ some '/' := by
  have hne : q.localName.toList.head? ≠ some '/' := by
    cases hl : q.localName.toList with
    | nil => simp
    | cons c s =>
      rw [hl] at hq
      have hc : isIdentifierStart c = true := (Bool.and_eq_true _ _ ▸ hq).1
      simp only [List.head?_cons, ne_eq, Option.some.injEq]
      rintro rfl
      revert hc
      decide
  have hnonempty : q.localName.toList ≠ [] := by
    intro hl
    rw [hl] at hq
    cases hq
  have hhead : p.render.toList.head? = q.localName.toList.head? := by
    unfold render renderWith
    rw [if_neg (by simp [isEmpty, hp]), h, hp]
    cases steps with
    | nil => simp
    | cons q' steps =>
      obtain ⟨c, l, hl⟩ := List.exists_cons_of_ne_nil hnonempty
      rw [List.map_cons, List.map_cons, String.intercalate_cons_cons]
      simp [hl]
  rw [hhead]
  exact hne

/-! ## Arguments of statements -/

theorem argument_of_requireArgument {stmt : Statement} {text : String}
    (h : stmt.requireArgument = .ok text) : stmt.argument = some text := by
  unfold Statement.requireArgument at h
  split at h
  · next ha =>
    cases h
    exact ha
  · cases h

namespace Setting

variable {k : Setting} {stmt : Statement} {p : SchemaPath}

/-- The target of a statement at the top of a source leads from the schema root somewhere. -/
theorem absolute_of_absolutePath {what : String} (h : k.absolutePath what stmt = .ok p) :
    p.absolute = true ∧ p.steps ≠ [] := by
  unfold absolutePath at h
  cases harg : stmt.requireArgument with
  | error f =>
    rw [harg] at h
    cases h
  | ok text =>
    rw [harg] at h
    cases hparse : PathExpr.parse text with
    | error f =>
      simp only [bind, Except.bind, hparse] at h
      cases h
    | ok e =>
      simp only [bind, Except.bind, hparse] at h
      split at h
      · cases h
      · next habs =>
        obtain ⟨h₁, h₂⟩ := Prefixes.path_eq_ok h
        refine ⟨by rw [h₁]; simpa using habs, fun hnil => ?_⟩
        rw [hnil] at h₂
        exact (PathExpr.steps_of_parse hparse).1 (List.map_eq_nil_iff.1 h₂.symm)

/-- How the target of a statement inside a uses is read. -/
theorem descendantPath_eq_ok (h : k.descendantPath stmt = .ok p) : ∃ text e p',
    stmt.argument = some text ∧ PathExpr.parse text = .ok e ∧ k.prefixes.path e = .ok p' ∧
      p = { p'.bindTo k.own with absolute := false } := by
  unfold descendantPath at h
  cases harg : stmt.requireArgument with
  | error f =>
    rw [harg] at h
    cases h
  | ok text =>
    rw [harg] at h
    cases hparse : PathExpr.parse text with
    | error f =>
      simp only [bind, Except.bind, hparse] at h
      cases h
    | ok e =>
      simp only [bind, Except.bind, hparse] at h
      split at h
      · cases h
      · cases hpath : k.prefixes.path e with
        | error f =>
          rw [hpath] at h
          cases h
        | ok p' =>
          rw [hpath] at h
          cases h
          exact ⟨text, e, p', argument_of_requireArgument harg, hparse, hpath, rfl⟩

/-- The target of a refine or an augmentation inside a uses is named in the own module. -/
theorem owner_of_descendantPath (h : k.descendantPath stmt = .ok p) :
    ∀ q ∈ p.steps, q.owner = k.own := by
  obtain ⟨-, -, p', -, -, -, rfl⟩ := descendantPath_eq_ok h
  intro q hq
  obtain ⟨q', -, rfl⟩ := List.mem_map.1 hq
  rfl

theorem owner_of_readRefine {t : RefineTask} (h : k.readRefine stmt = .ok t) :
    ∀ q ∈ t.target.steps, q.owner = k.own := by
  unfold readRefine at h
  cases htarget : k.descendantPath stmt with
  | error f =>
    rw [htarget] at h
    cases h
  | ok target =>
    have hread : t.target = target := by
      simp only [htarget, bind, Except.bind] at h
      repeat' split at h
      all_goals cases h
      rfl
    rw [hread]
    exact owner_of_descendantPath htarget

/-- The target of an augmentation inside a uses is never taken for that of a module-level one. -/
theorem relative_of_descendantPath (h : k.descendantPath stmt = .ok p) : Draft.Relative p := by
  obtain ⟨text, e, p', -, hparse, hpath, rfl⟩ := descendantPath_eq_ok h
  obtain ⟨-, h₂⟩ := Prefixes.path_eq_ok hpath
  obtain ⟨hne, hall⟩ := PathExpr.steps_of_parse hparse
  obtain ⟨s, rest, hs⟩ := List.exists_cons_of_ne_nil hne
  rw [hs, List.map_cons] at h₂
  obtain ⟨q, steps, hsteps, hq, -⟩ := List.map_eq_cons_iff.1 h₂
  intro r hr heq
  have hhead := SchemaPath.head?_render_of_absolute hr
  rw [← heq] at hhead
  have hbound : (p'.bindTo k.own).steps = q.bindTo k.own :: steps.map (QName.bindTo k.own) := by
    show p'.steps.map _ = _
    rw [hsteps]
    rfl
  refine absurd hhead (SchemaPath.head?_render_of_relative rfl hbound ?_)
  show isIdentifier q.localName.toList = true
  rw [hq]
  exact hall s (by rw [hs]; simp)

end Setting

end YangSchema
