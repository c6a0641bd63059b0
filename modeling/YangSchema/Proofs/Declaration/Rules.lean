import YangSchema.Declaration.Module
import YangSchema.Proofs.Declaration.Outcome
import YangSchema.Proofs.Draft.Frame

/-!
# Rules for declarations

A statement of a body is a node with a body of its own, an instance of an extension, a `uses`, a typedef,
or nothing that is declared here (`gives_declareStatement_of`).  At the top of a source an extension, a
feature and an identity each list one definition with their module (`Statement.ListsAs`), and a
deviation is listed and numbered, and may become a task (`gives_declareTop_of`,
`gives_declareDeviation_of`).  So whatever is to be shown of a statement is shown of these steps.
-/

namespace YangSchema

open Declare

/-- The statement defines `q` in its module, which then says of itself what `f` adds. -/
inductive Statement.ListsAs (stmt : Statement) (q : QName) : (ModuleFacts → ModuleFacts) → Prop
  | extension (hkeyword : stmt.keyword = .word .extensionWord) (x : ExtensionDefinition)
    (hx : x.name = q) : stmt.ListsAs q fun f => { f with extensions := f.extensions ++ [x] }
  | feature (hkeyword : stmt.keyword = .word .feature) (x : FeatureDefinition) (hx : x.name = q) :
    stmt.ListsAs q fun f => { f with features := f.features ++ [x] }
  | identity (hkeyword : stmt.keyword = .word .identity) (x : IdentityDefinition) (hx : x.name = q) :
    stmt.ListsAs q fun f => { f with identities := f.identities ++ [x] }

theorem Statement.ListsAs.heading {stmt : Statement} {q : QName} {f : ModuleFacts → ModuleFacts}
    (h : stmt.ListsAs q f) (r : ModuleFacts) : (f r).heading = r.heading := by
  cases h <;> rfl

/-- An instance of an extension has none of the keywords of the language. -/
theorem Statement.keyword_ne_of_unknown? {stmt : Statement} {b : Prefixes}
    {unknown : Except Fault UnknownStatement} (h : stmt.unknown? b = some unknown) (word : Word) :
    stmt.keyword ≠ .word word := by
  intro hkeyword
  rw [Statement.unknown?, hkeyword] at h
  cases h

namespace Setting

variable {k : Setting} {w : Workspace} {stmt : Statement} {Q : Unit → Workspace → Prop}

/-! ## Bodies -/

/-- The rule for a statement of a body.  What is left to `hrest` is declared elsewhere or not at all; an
augmentation or a deviation is there only at the top of a source. -/
theorem gives_declareStatement_of {body : BodyDeclarer} {s : Site} {scope : Scope}
    {enclosing : List Owner}
    (hnode : ∀ kind, stmt.nodeKind? k.prefixes = some kind → Gives (k.declareNode s stmt kind) w
      fun i w' => Gives (body (.node i) stmt scope enclosing) w' Q)
    (hunknown : ∀ unknown x, stmt.nodeKind? k.prefixes = none →
      stmt.unknown? k.prefixes = some unknown → unknown = .ok x →
      Gives (Declare.edit (Draft.pushUnknown s [x])) w Q)
    (huses : stmt.nodeKind? k.prefixes = none → stmt.unknown? k.prefixes = none →
      stmt.keyword = .word .uses → Gives (k.declareUses body s stmt scope enclosing) w Q)
    (htypedef : stmt.nodeKind? k.prefixes = none → stmt.unknown? k.prefixes = none →
      stmt.keyword = .word .typedef → Gives (k.declareTypedef s stmt) w Q)
    (hrest : stmt.nodeKind? k.prefixes = none → stmt.unknown? k.prefixes = none →
      stmt.keyword ≠ .word .uses → stmt.keyword ≠ .word .typedef →
      (stmt.keyword = .word .augment ∨ stmt.keyword = .word .deviation → ∃ m, s = .module m) →
      Q () w) :
    Gives (k.declareStatement body s stmt scope enclosing) w Q := by
  unfold declareStatement
  cases hkind : stmt.nodeKind? k.prefixes with
  | some kind => exact gives_bind.2 (hnode kind hkind)
  | none =>
    cases hu : stmt.unknown? k.prefixes with
    | some unknown => exact gives_bind.2 (gives_check.2 fun x hx => hunknown unknown x hkind hu hx)
    | none =>
      dsimp only
      split
      · next hkeyword => exact huses hkind hu hkeyword
      · next hkeyword => exact htypedef hkind hu hkeyword
      · next m hkeyword =>
        exact (gives_pure _).2 (hrest hkind hu (by simp [hkeyword]) (by simp [hkeyword]) fun _ => ⟨m, rfl⟩)
      · next m hkeyword =>
        exact (gives_pure _).2 (hrest hkind hu (by simp [hkeyword]) (by simp [hkeyword]) fun _ => ⟨m, rfl⟩)
      · exact gives_throw _
      · exact gives_throw _
      · next h₁ h₂ h₃ h₄ _ _ =>
        refine (gives_pure _).2 (hrest hkind hu h₁ h₂ ?_)
        rintro (h | h)
        · exact absurd h h₃
        · exact absurd h h₄

/-! ## The top of a source -/

/-- The rule for a statement at the top: a definition is listed under its argument, and augmentations and
deviations have rules of their own. -/
theorem gives_declareTop_of
    (hlists : ∀ text f, stmt.requireArgument = .ok text →
      stmt.ListsAs (k.prefixes.ownName text) f → Gives (k.editFacts f) w Q)
    (haugment : stmt.keyword = .word .augment → Gives (k.declareTopAugment stmt) w Q)
    (hdeviation : stmt.keyword = .word .deviation → Gives (k.declareDeviation stmt) w Q)
    (hrest : stmt.keyword ≠ .word .extensionWord → stmt.keyword ≠ .word .feature →
      stmt.keyword ≠ .word .identity → stmt.keyword ≠ .word .augment →
      stmt.keyword ≠ .word .deviation → Q () w) :
    Gives (k.declareTop stmt) w Q := by
  unfold declareTop
  split
  · next hkeyword =>
    unfold declareExtension
    rw [gives_bind, gives_check]
    intro text htext
    rw [gives_bind, gives_check]
    exact fun docs _ => hlists text _ htext (.extension hkeyword _ rfl)
  · next hkeyword =>
    unfold declareFeature
    rw [gives_bind, gives_check]
    intro text htext
    rw [gives_bind, gives_check]
    exact fun docs _ => hlists text _ htext (.feature hkeyword _ rfl)
  · next hkeyword =>
    unfold declareIdentity
    rw [gives_bind, gives_check]
    intro text htext
    rw [gives_bind, gives_check]
    intro bases _
    rw [gives_bind, gives_check]
    exact fun docs _ => hlists text _ htext (.identity hkeyword _ rfl)
  · next hkeyword => exact haugment hkeyword
  · next hkeyword => exact hdeviation hkeyword
  · next h₁ h₂ h₃ h₄ h₅ => exact (gives_pure _).2 (hrest h₁ h₂ h₃ h₄ h₅)

/-- The rule for a deviation: it is numbered and listed, and perhaps there is a task more then. -/
theorem gives_declareDeviation_of
    (hlists : ∀ (x : Deviation) deviated, k.absolutePath "'deviation'" stmt = .ok x.target →
      k.deviatedModule x.target = .ok deviated →
      Gives (k.editFacts fun f => { f with deviations := f.deviations ++ [x] })
        { w with nextOrder := w.nextOrder + 1 } fun _ w' => Q () w' ∧ ∀ t,
          Q () { w' with tasks := { w'.tasks with deviations := w'.tasks.deviations ++ [t] } }) :
    Gives (k.declareDeviation stmt) w Q := by
  unfold declareDeviation
  rw [gives_bind, gives_check]
  intro target htarget
  rw [gives_bind, gives_check]
  intro deviated hdeviated
  rw [gives_bind]
  refine (gives_readAll _).mono ?_
  rintro deviates w' ⟨rfl, -⟩
  dsimp only
  rw [gives_bind, gives_nextOrder, gives_bind]
  refine (hlists _ deviated htarget hdeviated).mono ?_
  rintro _ w₁ ⟨hlisted, htask⟩
  split
  · exact (gives_addDeviationTask _).2 (htask _)
  · exact (gives_pure _).2 hlisted

end Setting

end YangSchema
