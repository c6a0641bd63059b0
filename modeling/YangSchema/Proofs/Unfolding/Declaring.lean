import YangSchema.Proofs.Unfolding.Layout

/-!
# Declaring what sources say

Where a layout fits the workspace, the declaration of a body extends it to one that fits again, and
everything that the body declares is then there (`Setting.rendersBodies`).
-/

namespace YangSchema

open Draft Edit Declare

/-- Nowhere in the statement is one with the given word. -/
def Statement.Lacks (word : Word) (s : Statement) : Prop :=
  ∀ c ∈ s.preorder, c.keyword ≠ .word word

namespace Statement.Lacks

variable {word : Word} {s c : Statement}

theorem of_mem_children (h : s.Lacks word) (hc : c ∈ s.children) : c.Lacks word := by
  intro x hx
  refine h x ?_
  rw [preorder_eq]
  exact List.mem_cons_of_mem _ (List.mem_flatMap.2 ⟨c, hc, hx⟩)

theorem keyword_ne (h : s.Lacks word) : s.keyword ≠ .word word := by
  refine h s ?_
  rw [preorder_eq]
  exact List.mem_cons_self

theorem all_eq_nil (h : s.Lacks word) : s.all (.word word) = [] := by
  refine List.filter_eq_nil_iff.2 fun c hc hkeyword => ?_
  exact (h.of_mem_children hc).keyword_ne (beq_iff_eq.1 hkeyword)

end Statement.Lacks

/-- A statement that defines a choice has the keyword of one. -/
theorem Statement.isChoice_of_nodeKind? {b : Prefixes} {s : Statement} {kind : NodeKind}
    (h : s.nodeKind? b = some (.ok kind)) : kind.isChoice = (s.keyword == .word .choice) := by
  unfold nodeKind? at h
  split at h
  · next word hkeyword =>
    rw [hkeyword]
    split at h
    all_goals
      first
        | (cases h; rfl)
        | cases h
        | (cases hk : s.keys b with
            | error f =>
              rw [hk] at h
              cases h
            | ok l =>
              rw [hk] at h
              cases h
              rfl)
  · cases h

variable {R R' O : Layout} {w w' : Workspace} {s : Site} {P : Place} {stmt : Statement} {k : Setting}
  {scope : Scope} {enclosing : List Owner}

/-! ## Single definitions -/

namespace Layout.Fits

/-- Nothing is added. -/
theorem quiet (h : R.Fits O w) (hd : w.draft.Sound) (hk : w.draft.Keeps w'.draft)
    (haug : ∀ u, u.index < w.draft.uses.size →
      (w'.draft.usesOf u).augmentations = (w.draft.usesOf u).augmentations)
    (hchildren : ∀ s, w'.draft.childrenOf s = w.draft.childrenOf s)
    (huses : w'.tasks.uses = w.tasks.uses) : R.Fits O w' := by
  refine h.grow hd hk haug (le_refl R) (le_refl O) (fun _ _ => .inl) (fun s hs c hc => ?_)
    ⟨[], by rw [huses, List.append_nil], by simp⟩
  rw [hchildren] at hc
  exact .inl ⟨hs, hc⟩

/-- A grouping is added. -/
theorem groupingAdded (h : R.Fits O w) (hd : w.draft.Sound) {r : QName × GroupingId}
    (ha : k.GroupingAdded s stmt w r w') (hprefixes : P.prefixes = k.prefixes)
    (hkeyword : stmt.keyword = .word .grouping) :
    (R.add (.grouping r.2) (P.inside stmt)).Fits (O.add (.grouping r.2) (P.inside stmt)) w' ∧
      (R.add (.grouping r.2) (P.inside stmt)).Knows r (P.inside stmt) := by
  have hk := ha.enlarges.keeps
  have hnew : ¬ w.draft.HasSite (.grouping r.2) := by
    rw [ha.id]
    exact Nat.lt_irrefl _
  have hnone : ∀ Q, ¬ R (.grouping r.2) Q := fun Q hQ => hnew (h.site _ Q hQ)
  constructor
  · refine h.grow hd hk ha.enlarges.augmentations (R.le_add _ _) (O.le_add _ _) ?_ ?_
      ⟨[], by rw [ha.tasks, List.append_nil], by simp⟩
    · rintro s' P' (hP' | ⟨rfl, rfl⟩)
      · exact .inl hP'
      · refine .inr ⟨ha.lt, ?_, fun i hi => (by cases hi), O.add_self _ _, fun _ => ⟨hnew, ?_⟩⟩
        · show false = (stmt.keyword == .word .choice)
          rw [hkeyword]
          rfl
        · rintro Q (hQ | ⟨-, rfl⟩)
          · exact absurd hQ (hnone Q)
          · rfl
    · rintro s' ⟨P', hP'⟩ c hc
      rw [ha.childrenOf] at hc
      rcases hP' with hP' | ⟨rfl, -⟩
      · exact .inl ⟨⟨P', hP'⟩, hc⟩
      · exact absurd (hasSite_of_mem_childrenOf hc) hnew
  · obtain ⟨text, htext, hname⟩ := ha.name
    refine ⟨?_, R.add_self _ _⟩
    show stmt.argument.map P.prefixes.ownName = some r.1
    rw [htext, hname, hprefixes]
    rfl

/-- A node is added. -/
theorem nodeAdded (h : R.Fits O w) (hd : w.draft.Sound) {kind : Except Fault NodeKind}
    {i x : NodeId} (ha : k.NodeAdded s stmt kind w i x w') (hP : R s P)
    (hprefixes : P.prefixes = k.prefixes) (hmem : stmt ∈ P.body.children)
    (hkind : stmt.nodeKind? P.prefixes = some kind) :
    (R.add (.node i) (P.inside stmt)).Fits (O.add (.node i) (P.inside stmt)) w' ∧
      (R.add (.node i) (P.inside stmt)).StandsFor w'.draft s P stmt x i := by
  have hk := ha.enlarges.keeps
  have hnew : ¬ w.draft.HasSite (.node i) := Nat.not_lt.2 ha.new
  have hnone : ∀ Q, ¬ R (.node i) Q := fun Q hQ => hnew (h.site _ Q hQ)
  have hkind' := hkind
  rw [ha.kind] at hkind'
  have hstands : (R.add (.node i) (P.inside stmt)).StandsFor w'.draft s P stmt x i := by
    refine ⟨hmem, by rw [ha.children]; simp, hkind', ?_, R.add_self _ _, ?_⟩
    · obtain ⟨text, htext, hname⟩ := ha.name
      exact ⟨text, htext, hname.trans (by rw [hprefixes])⟩
    · rcases ha.place with hplace | ⟨-, hw, -, hcase, hin⟩
      · exact .inl hplace
      · exact .inr ⟨hw, hcase, ha.name_eq, by rw [hin]; exact List.mem_singleton_self i⟩
  refine ⟨h.grow hd hk ha.enlarges.augmentations (R.le_add _ _) (O.le_add _ _) ?_ ?_
    ⟨[], by rw [ha.tasks, List.append_nil], by simp⟩, hstands⟩
  · rintro s' P' (hP' | ⟨rfl, rfl⟩)
    · exact .inl hP'
    · refine .inr ⟨ha.lt, Statement.isChoice_of_nodeKind? hkind', ?_, O.add_self _ _,
        fun _ => ⟨hnew, ?_⟩⟩
      · rintro j hj hcase
        cases hj
        exact Setting.nodeKind?_ne_shorthand hkind' (by rw [hcase])
      · rintro Q (hQ | ⟨-, rfl⟩)
        · exact absurd hQ (hnone Q)
        · rfl
  · rintro s' ⟨P', hP'⟩ c hc
    rcases hP' with hP' | ⟨rfl, -⟩
    · by_cases hs' : s' = s
      · subst hs'
        rw [ha.children] at hc
        rcases List.mem_append.1 hc with hc | hc
        · exact .inl ⟨⟨P', hP'⟩, hc⟩
        · rw [List.mem_singleton.1 hc]
          exact .inr ⟨P, stmt, i, R.le_add _ _ _ _ hP, hstands⟩
      · rw [ha.enlarges.childrenOf s' (h.site _ P' hP') hs'] at hc
        exact .inl ⟨⟨P', hP'⟩, hc⟩
    · rw [ha.below] at hc
      cases hc

/-- A uses without augmentations is added. -/
theorem usesAdded (h : R.Fits O w) (hd : w.draft.Sound) (ha : k.UsesAdded s stmt scope w w')
    (hP : R s P) (hprefixes : P.prefixes = k.prefixes) (hmem : stmt ∈ P.body.children)
    (hkeyword : stmt.keyword = .word .uses) (hscope : List.Forall₂ R.Knows scope P.visible)
    (hbare : stmt.all (.word .augment) = []) :
    R.Fits O w' ∧ ∃ t ∈ w'.tasks.uses, t.site = s ∧ R.Asks t P stmt := by
  obtain ⟨inner, t, huses, -, rfl, rfl, hhome, htext, hnone⟩ := ha.tasks
  obtain ⟨rfl, hinner⟩ := hnone hbare
  rw [List.append_nil] at huses
  have hasks : R.Asks t P stmt := by
    refine ⟨hmem, hkeyword, ?_, hhome.trans ?_, hscope⟩
    · rw [hprefixes]
      exact htext
    · rw [hprefixes]
      rfl
  have hlt : t.uses.index < w'.draft.uses.size := by
    obtain ⟨more, hmore, hall⟩ := ha.declares.tasks
    rw [hmore] at huses
    obtain rfl : more = [t] := List.append_cancel_left huses
    exact (hall t (List.mem_singleton_self t)).1.uses
  constructor
  · refine h.grow hd ha.declares.enlarges.keeps ha.declares.enlarges.augmentations (le_refl R)
      (le_refl O) (fun _ _ => .inl) ?_ ⟨[t], huses, fun t' ht' => ?_⟩
    · rintro s' ⟨P', hP'⟩ c hc
      rw [ha.childrenOf s' (h.site _ P' hP')] at hc
      exact .inl ⟨⟨P', hP'⟩, hc⟩
    · rw [List.mem_singleton.1 ht']
      exact ⟨hlt, hinner, P, stmt, hP, hasks⟩
  · refine ⟨t, ?_, rfl, hasks⟩
    rw [huses]
    exact List.mem_append_right _ (List.mem_singleton_self t)

end Layout.Fits

/-! ## Statements -/

namespace Setting

/-- The body at `P` may be declared at the site. -/
structure Opens (k : Setting) (R O : Layout) (w : Workspace) (s : Site) (P : Place)
    (enclosing : List Owner) : Prop where
  sound : w.draft.Sound
  stands : k.Stands w.draft s enclosing
  fits : R.Fits O w
  placed : R s P
  prefixes : P.prefixes = k.prefixes
  bare : P.body.Lacks .augment

/-- The body at `P` is declared. -/
structure BodyAdded (R O : Layout) (w : Workspace) (s : Site) (P : Place) (R' : Layout)
    (w' : Workspace) : Prop where
  extends_layout : R.Extends R' w.draft
  fits : R'.Fits O w'
  complete : R'.Complete w' s P
  groupings : ∀ m, s = .module m → ∃ more,
    (w'.draft.module m).groupings = (w.draft.module m).groupings ++ more ∧
      R'.Lists w'.draft more P.groupings

/-- A way to declare bodies that does what `BodyAdded` says. -/
def RendersBodies (k : Setting) (body : BodyDeclarer) : Prop :=
  ∀ (R O : Layout) (w : Workspace) (s : Site) (P : Place) (scope : Scope) (enclosing : List Owner),
    k.Opens R O w s P enclosing → List.Forall₂ R.Knows scope (Place.scopeOf P.prefixes P.around) →
      Gives (body s P.body scope enclosing) w fun _ w' => ∃ R', BodyAdded R O w s P R' w'

/-- One statement of the body is declared. -/
structure StatementAdded (R O : Layout) (w : Workspace) (s : Site) (P : Place) (stmt : Statement)
    (R' : Layout) (w' : Workspace) : Prop where
  extends_layout : R.Extends R' w.draft
  fits : R'.Fits O w'
  carries : R'.Carries w' s P stmt
  groupings : ∀ m, (w'.draft.module m).groupings = (w.draft.module m).groupings

/-- What adds nothing carries what declares nothing. -/
theorem StatementAdded.quiet {w' : Workspace} (hkind : stmt.nodeKind? P.prefixes = none)
    (hkeyword : stmt.keyword ≠ .word .uses) (hfits : R.Fits O w')
    (hgroupings : ∀ m, (w'.draft.module m).groupings = (w.draft.module m).groupings) :
    StatementAdded R O w s P stmt R w' where
  extends_layout := .refl R _
  fits := hfits
  carries := ⟨fun kind hk => (by rw [hkind] at hk; cases hk), fun hk => absurd hk hkeyword⟩
  groupings := hgroupings

/-- A node is declared with its body. -/
theorem gives_declareNode_added {body : BodyDeclarer} (hbody : k.RendersBodies body)
    (hdeclares : k.DeclaresBodies body) (h : k.Opens R O w s P enclosing)
    (hscope : List.Forall₂ R.Knows scope P.visible) (hmem : stmt ∈ P.body.children)
    {kind : Except Fault NodeKind} (hkind : stmt.nodeKind? P.prefixes = some kind) :
    Gives (k.declareNode s stmt kind) w fun i w₁ => Gives (body (.node i) stmt scope enclosing) w₁
      fun _ w' => ∃ R', StatementAdded R O w s P stmt R' w' := by
  have hd := h.sound
  have hbare := h.bare.of_mem_children hmem
  have hne := nodeKind?_ne_shorthand hkind
  refine (gives_declareNode hd h.stands.site hne).mono ?_
  rintro i w₁ ⟨x, ha⟩
  obtain ⟨hfits₁, hstandsFor⟩ := h.fits.nodeAdded hd ha h.placed h.prefixes hmem hkind
  have hstands₁ := h.stands.node hd hne ha
  have hopens : k.Opens (R.add (.node i) (P.inside stmt)) (O.add (.node i) (P.inside stmt)) w₁
      (.node i) (P.inside stmt) enclosing :=
    ⟨ha.enlarges.sound, hstands₁, hfits₁, R.add_self _ _, h.prefixes, hbare⟩
  have hscope₁ : List.Forall₂ (R.add (.node i) (P.inside stmt)).Knows scope
      (Place.scopeOf (P.inside stmt).prefixes (P.inside stmt).around) :=
    hscope.imp fun _ _ => Layout.Knows.mono (R.le_add _ _)
  refine ((hbody _ _ w₁ _ _ _ _ hopens hscope₁).and
    (hdeclares _ _ scope enclosing w₁ ha.enlarges.sound hstands₁)).mono ?_
  rintro - w₂ ⟨⟨R', hadded⟩, hw₂⟩
  have hnew : ¬ w.draft.HasSite (.node i) := Nat.not_lt.2 ha.new
  have hnode := hstandsFor.mono hadded.extends_layout.le ha.enlarges.sound hw₂.enlarges.keeps ha.lt
  refine ⟨R', {
    extends_layout := (Layout.extends_add hnew).trans hadded.extends_layout ha.enlarges.keeps
    fits := hadded.fits.close fun s' P' _ hO => ?_
    carries := ⟨fun _ _ => ⟨x, i, hnode⟩, fun hk => ?_⟩
    groupings := fun m => by rw [hw₂.enlarges.groupings m (by simp), ha.groupings] }⟩
  · rcases hO with hO | ⟨rfl, rfl⟩
    · exact .inl hO
    · exact .inr hadded.complete
  · unfold Statement.nodeKind? at hkind
    rw [hk] at hkind
    cases hkind

theorem gives_declareStatement_added {body : BodyDeclarer} (hbody : k.RendersBodies body)
    (hdeclares : k.DeclaresBodies body) (h : k.Opens R O w s P enclosing)
    (hscope : List.Forall₂ R.Knows scope P.visible) (hmem : stmt ∈ P.body.children) :
    Gives (k.declareStatement body s stmt scope enclosing) w fun _ w' =>
      ∃ R', StatementAdded R O w s P stmt R' w' := by
  have hd := h.sound
  have hbare := h.bare.of_mem_children hmem
  refine gives_declareStatement_of (fun kind hkind => ?_) (fun _ u hkind hunknown _ => ?_)
    (fun hkind _ hkeyword => ?_) (fun hkind _ hkeyword => ?_) fun hkind _ huses _ _ => ?_
  · exact gives_declareNode_added hbody hdeclares h hscope hmem (h.prefixes ▸ hkind)
  · refine gives_edit ((ends_pushUnknown hd _).mono ?_ fun _ _ _ => trivial)
    intro _ d' hd'
    exact ⟨R, .quiet (h.prefixes ▸ hkind) (Statement.keyword_ne_of_unknown? hunknown .uses)
      (h.fits.quiet hd hd'.keeps (fun u _ => hd'.augmentations u) hd'.childrenOf rfl)
      fun m => hd'.groupingsAt (.module m)⟩
  · refine (gives_declareUses hdeclares hd h.stands scope).mono ?_
    intro _ w' ha
    obtain ⟨hfits, htask⟩ := h.fits.usesAdded hd ha h.placed h.prefixes hmem hkeyword hscope
      hbare.all_eq_nil
    refine ⟨R, .refl R _, hfits, ⟨fun kind hk => ?_, fun _ => htask⟩, ha.groupings⟩
    rw [h.prefixes, hkind] at hk
    cases hk
  · refine (gives_declareTypedef hd).mono ?_
    rintro _ w' ⟨he, htasks, hchildren, hgroupings⟩
    refine ⟨R, .quiet (h.prefixes ▸ hkind) (by rw [hkeyword]; simp) ?_ hgroupings⟩
    exact h.fits.quiet hd he.keeps he.augmentations hchildren (by rw [htasks])
  · exact ⟨R, .quiet (h.prefixes ▸ hkind) huses h.fits fun _ => rfl⟩

/-! ## Bodies -/

/-- While the groupings of a body are declared: their bodies are still empty. -/
structure GroupingsOpened (k : Setting) (R O : Layout) (w : Workspace) (s : Site) (P : Place)
    (pre : List Statement) (rs : List ((QName × GroupingId) × Statement)) (R₁ : Layout)
    (w₁ : Workspace) : Prop extends k.GroupingsAdded s w rs w₁ where
  extends_layout : R.Extends R₁ w.draft
  fits : R₁.Fits (fun s' P' => O s' P' ∨ ∃ r ∈ rs, s' = .grouping r.1.2 ∧ P' = P.inside r.2) w₁
  knows : ∀ r ∈ rs, R₁.Knows r.1 (P.inside r.2)
  statements : rs.map Prod.snd = pre
  names : ∀ r ∈ rs, (w₁.draft.grouping r.1.2).facts.name = r.1.1
  listed : ∀ m, s = .module m →
    (w₁.draft.module m).groupings = (w.draft.module m).groupings ++ rs.map (·.1.2)

theorem gives_declareGroupings_opened (h : k.Opens R O w s P enclosing) :
    Gives ((P.body.all (.word .grouping)).mapM fun c =>
        located (k.trace c) do return (← k.declareGrouping s c, c)) w
      fun rs w₁ => ∃ R₁, GroupingsOpened k R O w s P (P.body.all (.word .grouping)) rs R₁ w₁ := by
  refine gives_mapM (I := fun pre rs w₁ => ∃ R₁, GroupingsOpened k R O w s P pre rs R₁ w₁) _
    ⟨R, ?_⟩ ?_
  · exact {
      declares := .refl h.sound
      new := by simp
      extends_layout := .refl R _
      fits := h.fits.close fun _ _ _ hO => .inl (.inl hO)
      knows := by simp
      statements := rfl
      names := by simp
      listed := by simp }
  rintro pre c post rs w₁ hl ⟨R₁, h₁⟩
  have he := h₁.declares.enlarges
  have hkeyword : c.keyword = .word .grouping := by
    have hmem : c ∈ P.body.all (.word .grouping) := by rw [hl]; simp
    exact beq_iff_eq.1 (List.mem_filter.1 hmem).2
  rw [gives_located, gives_bind]
  refine (gives_declareGrouping he.sound (he.keeps.hasSite h.stands.site)
    (he.plain h.stands.site h.stands.plain)).mono ?_
  intro r w₂ ha
  rw [gives_pure]
  obtain ⟨hfits, hknows⟩ := h₁.fits.groupingAdded he.sound ha h.prefixes hkeyword
  have hnew : ¬ w₁.draft.HasSite (.grouping r.2) := by
    rw [ha.id]
    exact Nat.lt_irrefl _
  refine ⟨_, {
    declares := h₁.declares.trans (.of_enlarges ha.enlarges ha.tasks) h.stands.site h.stands.plain
    new := fun r' hr' => ?_
    extends_layout := h₁.extends_layout.trans (Layout.extends_add hnew) he.keeps
    fits := hfits.close fun s' P' _ hO => .inl ?_
    knows := fun r' hr' => ?_
    statements := by simp [h₁.statements]
    names := fun r' hr' => ?_
    listed := fun m hm => ?_ }⟩
  · rcases List.mem_append.1 hr' with hr' | hr'
    · obtain ⟨hle, hlt⟩ := h₁.new r' hr'
      exact ⟨hle, Nat.lt_of_lt_of_le hlt ha.enlarges.keeps.groupings_le⟩
    · rw [List.mem_singleton.1 hr']
      refine ⟨?_, ha.lt⟩
      show _ ≤ r.2.index
      rw [ha.id]
      exact he.keeps.groupings_le
  · rcases hO with (hO | ⟨r', hr', hO⟩) | hO
    · exact .inl hO
    · exact .inr ⟨r', List.mem_append_left _ hr', hO⟩
    · exact .inr ⟨(r, c), List.mem_append_right _ (List.mem_singleton_self _), hO⟩
  · rcases List.mem_append.1 hr' with hr' | hr'
    · exact (h₁.knows r' hr').mono (Layout.le_add _ _ _)
    · rw [List.mem_singleton.1 hr']
      exact hknows
  · rcases List.mem_append.1 hr' with hr' | hr'
    · rw [ha.enlarges.keeps.grouping _ (h₁.new r' hr').2]
      exact h₁.names r' hr'
    · rw [List.mem_singleton.1 hr']
      exact ha.facts
  · rw [ha.listed m hm.symm, h₁.listed m hm]
    simp

/-- The scope of the body knows the groupings that can be seen from its statements. -/
theorem GroupingsOpened.knows_scope {rs : List ((QName × GroupingId) × Statement)} {R₁ : Layout}
    {w₁ : Workspace} (h : GroupingsOpened k R O w s P (P.body.all (.word .grouping)) rs R₁ w₁)
    (hscope : List.Forall₂ R.Knows scope (Place.scopeOf P.prefixes P.around)) :
    List.Forall₂ R₁.Knows ((rs.map Prod.fst).reverse ++ scope) P.visible := by
  have hown : List.Forall₂ R₁.Knows (rs.map Prod.fst) P.groupings := by
    unfold Place.groupings
    rw [← h.statements, List.map_map, List.forall₂_map_left_iff, List.forall₂_map_right_iff]
    exact List.forall₂_same.2 h.knows
  exact List.rel_append (List.rel_reverse hown)
    (hscope.imp fun _ _ => Layout.Knows.mono h.extends_layout.le)

/-- While a body is declared: `R'` and `w'` go on from `R₁` and `w₁`. -/
structure Progress (k : Setting) (s : Site) (w : Workspace) (R₁ O₁ : Layout) (w₁ : Workspace)
    (R' : Layout) (w' : Workspace) : Prop where
  declares : k.Declares s w w'
  keeps : w₁.draft.Keeps w'.draft
  extends_layout : R₁.Extends R' w₁.draft
  fits : R'.Fits O₁ w'
  groupings : ∀ m, (w'.draft.module m).groupings = (w₁.draft.module m).groupings

/-- Something more is declared, at the site or at a new one. -/
theorem Progress.next {x : Site} {R₁ O₁ R₂ R₃ : Layout} {w₁ w₂ w₃ : Workspace}
    (h : k.Progress s w R₁ O₁ w₁ R₂ w₂) (hw : k.Declares x w₂ w₃)
    (hx : x = s ∨ ¬ w.draft.HasSite x) (hplain : w₂.draft.Plain x)
    (hextends : R₂.Extends R₃ w₂.draft) (hfits : R₃.Fits O₁ w₃)
    (hgroupings : ∀ m, (w₃.draft.module m).groupings = (w₂.draft.module m).groupings) :
    k.Progress s w R₁ O₁ w₁ R₃ w₃ where
  declares := h.declares.trans_at hw hx hplain
  keeps := h.keeps.trans hw.enlarges.keeps
  extends_layout := h.extends_layout.trans hextends h.keeps
  fits := hfits
  groupings m := (hgroupings m).trans (h.groupings m)

/-- What is there stays. -/
theorem carries_of_declares {x : Site} {R₂ : Layout} {w₂ : Workspace} (hfits : R.Fits O w)
    (hd : w.draft.Sound) (hw : k.Declares x w w₂) (hR : R ≤ R₂) (h : R.Carries w s P stmt) :
    R₂.Carries w₂ s P stmt := by
  obtain ⟨more, hmore, -⟩ := hw.tasks
  refine h.mono hR hd hw.enlarges.keeps ?_ hfits.site
  rw [hmore]
  exact List.subset_append_left ..

/-- The bodies of the groupings are declared. -/
theorem gives_declareGroupingBodies {body : BodyDeclarer} (hbody : k.RendersBodies body)
    (hdeclares : k.DeclaresBodies body) (h : k.Opens R O w s P enclosing)
    {rs : List ((QName × GroupingId) × Statement)} {R₁ : Layout} {w₁ : Workspace}
    (h₁ : GroupingsOpened k R O w s P (P.body.all (.word .grouping)) rs R₁ w₁)
    (hscope : List.Forall₂ R₁.Knows scope P.visible) :
    Gives (rs.forM fun ((_, g), c) => located (k.trace c) do
        body (.grouping g) c scope (enclosing ++ [.grouping g])) w₁
      fun _ w' => ∃ R', k.Progress s w R₁ O w₁ R' w' := by
  generalize hO₁ : (fun s' P' => O s' P' ∨
    ∃ r ∈ rs, s' = .grouping r.1.2 ∧ P' = P.inside r.2 : Layout) = O₁
  have hfits₁ := h₁.fits
  rw [hO₁] at hfits₁
  refine (gives_forM (I := fun pre w' => ∃ R', k.Progress s w R₁ O₁ w₁ R' w' ∧
    ∀ r ∈ pre, R'.Complete w' (.grouping r.1.2) (P.inside r.2)) rs
    ⟨R₁, ⟨h₁.declares, .refl _, .refl R₁ _, hfits₁, fun _ => rfl⟩, by simp⟩ ?_).mono ?_
  · rintro pre ⟨⟨q, g⟩, c⟩ post w₂ hrs ⟨R₂, h₂, hdone⟩
    have hr : ((q, g), c) ∈ rs := by rw [hrs]; simp
    obtain ⟨hg, hlt⟩ := h₁.new _ hr
    have hcg := h₁.knows _ hr
    have hc : c ∈ P.body.all (.word .grouping) := by
      rw [← h₁.statements]
      exact List.mem_map_of_mem (f := Prod.snd) hr
    have hd₂ := h₂.declares.enlarges.sound
    have hlt₂ : g.index < w₂.draft.groupings.size := Nat.lt_of_lt_of_le hlt h₂.keeps.groupings_le
    have hstands₂ := h.stands.grouping h₂.declares.enlarges hg hlt₂
    have hnew : ¬ w.draft.HasSite (.grouping g) := Nat.not_lt.2 hg
    have hopens : k.Opens R₂ O₁ w₂ (.grouping g) (P.inside c) (enclosing ++ [.grouping g]) :=
      ⟨hd₂, hstands₂, h₂.fits, h₂.extends_layout.le _ _ hcg.2, h.prefixes,
        h.bare.of_mem_children (List.mem_of_mem_filter hc)⟩
    have hscope₂ : List.Forall₂ R₂.Knows scope
        (Place.scopeOf (P.inside c).prefixes (P.inside c).around) :=
      hscope.imp fun _ _ => Layout.Knows.mono h₂.extends_layout.le
    dsimp only
    rw [gives_located]
    refine ((hbody R₂ O₁ w₂ _ _ _ _ hopens hscope₂).and
      (hdeclares _ c _ _ w₂ hd₂ hstands₂)).mono ?_
    rintro - w₃ ⟨⟨R₃, h₃⟩, hw₃⟩
    refine ⟨R₃, h₂.next hw₃ (.inr hnew) hstands₂.plain h₃.extends_layout h₃.fits fun m =>
      hw₃.enlarges.groupings m (by simp), fun r' hr' => ?_⟩
    rcases List.mem_append.1 hr' with hr' | hr'
    · exact fun stmt hstmt => carries_of_declares h₂.fits hd₂ hw₃ h₃.extends_layout.le
        (hdone r' hr' stmt hstmt)
    · rw [List.mem_singleton.1 hr']
      exact h₃.complete
  · rintro - w₂ ⟨R₂, h₂, hdone⟩
    refine ⟨R₂, { h₂ with fits := h₂.fits.close fun s' P' _ hO => ?_ }⟩
    rw [← hO₁] at hO
    rcases hO with hO | ⟨r, hr, rfl, rfl⟩
    · exact .inl hO
    · exact .inr (hdone r hr)

/-- The statements of the body are declared. -/
theorem gives_declareStatements {body : BodyDeclarer} (hbody : k.RendersBodies body)
    (hdeclares : k.DeclaresBodies body) (h : k.Opens R O w s P enclosing) {R₂ : Layout}
    {w₂ : Workspace} (h₂ : k.Progress s w R₂ O w₂ R₂ w₂) (hR : R ≤ R₂)
    (hscope : List.Forall₂ R₂.Knows scope P.visible) :
    Gives (P.body.children.forM fun c => located (k.trace c) do
        k.declareStatement body s c scope enclosing) w₂
      fun _ w' => ∃ R', k.Progress s w R₂ O w₂ R' w' ∧ R'.Complete w' s P := by
  refine gives_forM (I := fun pre w' => ∃ R', k.Progress s w R₂ O w₂ R' w' ∧
    ∀ c ∈ pre, R'.Carries w' s P c) P.body.children ⟨R₂, h₂, by simp⟩ ?_
  rintro pre c post w₃ hl ⟨R₃, h₃, hcarries⟩
  have hd₃ := h₃.declares.enlarges.sound
  have hstands₃ := h.stands.enlarges h.sound h₃.declares.enlarges
  have hopens : k.Opens R₃ O w₃ s P enclosing :=
    ⟨hd₃, hstands₃, h₃.fits, h₃.extends_layout.le _ _ (hR _ _ h.placed), h.prefixes, h.bare⟩
  have hscope₃ := hscope.imp fun _ _ => Layout.Knows.mono h₃.extends_layout.le
  rw [gives_located]
  refine ((gives_declareStatement_added hbody hdeclares hopens hscope₃ (by rw [hl]; simp)).and
    (gives_declareStatement hdeclares hd₃ hstands₃ _)).mono ?_
  rintro - w₄ ⟨⟨R₄, h₄⟩, hw₄⟩
  refine ⟨R₄, h₃.next hw₄ (.inl rfl) hstands₃.plain h₄.extends_layout h₄.fits h₄.groupings,
    fun c' hc' => ?_⟩
  rcases List.mem_append.1 hc' with hc' | hc'
  · exact carries_of_declares h₃.fits hd₃ hw₄ h₄.extends_layout.le (hcarries c' hc')
  · rw [List.mem_singleton.1 hc']
    exact h₄.carries

/-- The groupings of a body are listed in their order. -/
theorem GroupingsOpened.lists {rs : List ((QName × GroupingId) × Statement)} {R₁ R₂ : Layout}
    {w₁ w₂ : Workspace} (h : GroupingsOpened k R O w s P (P.body.all (.word .grouping)) rs R₁ w₁)
    (hR : R₁ ≤ R₂) (hk : w₁.draft.Keeps w₂.draft) :
    R₂.Lists w₂.draft (rs.map (·.1.2)) P.groupings := by
  unfold Layout.Lists Place.groupings
  rw [← h.statements, List.map_map, List.forall₂_map_left_iff, List.forall₂_map_right_iff]
  refine List.forall₂_same.2 fun r hr => ?_
  rw [hk.grouping _ (h.new r hr).2, h.names r hr]
  exact (h.knows r hr).mono hR

/-- Declaring bodies does what `BodyAdded` says. -/
theorem rendersBodies (k : Setting) (fuel : Nat) : k.RendersBodies (k.declareBodyUpTo fuel) := by
  induction fuel with
  | zero => exact fun _ _ _ _ _ _ _ _ _ => gives_throw _
  | succ fuel ih =>
    intro R O w s P scope enclosing h hscope
    have hdeclares := k.declaresBodies fuel
    rw [declareBodyUpTo, gives_bind]
    refine (gives_declareGroupings_opened h).mono ?_
    rintro rs w₁ ⟨R₁, h₁⟩
    have hscope₁ := h₁.knows_scope hscope
    dsimp only
    rw [gives_bind]
    refine (gives_declareGroupingBodies ih hdeclares h h₁ hscope₁).mono ?_
    rintro - w₂ ⟨R₂, h₂⟩
    have hR₂ := h₁.extends_layout.trans h₂.extends_layout h₁.declares.enlarges.keeps
    refine (gives_declareStatements ih hdeclares h
      ⟨h₂.declares, .refl _, .refl R₂ _, h₂.fits, fun _ => rfl⟩ hR₂.le
      (hscope₁.imp fun _ _ => Layout.Knows.mono h₂.extends_layout.le)).mono ?_
    rintro - w₃ ⟨R₃, h₃, hcomplete⟩
    refine ⟨R₃, hR₂.trans h₃.extends_layout h₂.declares.enlarges.keeps, h₃.fits, hcomplete,
      fun m hm => ⟨rs.map (·.1.2), ?_, ?_⟩⟩
    · rw [h₃.groupings, h₂.groupings, h₁.listed m hm]
    · exact h₁.lists (le_trans h₂.extends_layout.le h₃.extends_layout.le)
        (h₂.keeps.trans h₃.keeps)

end Setting

end YangSchema
