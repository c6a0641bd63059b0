import YangSchema.Proofs.Declaration.Module
import YangSchema.Proofs.Resolution

/-!
# What declarations refuse

Declarations fail only for a cause that belongs to their phase (`Declare.Orderly`): something is
malformed, a prefix is bound to nothing, a deviation may not be declared, or a module is declared twice.
The edits that they make find what they change, a body is no deeper than its statement, and all that is
looked up in the registry was linked before.
-/

namespace YangSchema

open Draft Edit Declare

/-! ## Orderly declarations -/

namespace Declare

variable {α β γ : Type} {w : Workspace}

/-- On `w` the declaration fails for a cause of its phase only. -/
def Orderly (x : Declare α) (w : Workspace) : Prop := FailsOnly (Cause.Of .fullDeclaration) (x w)

theorem orderly_pure (a : α) : Orderly (pure a) w := .ok _

theorem orderly_throw {f : Fault} (h : f.cause.Of .fullDeclaration) :
    Orderly (throw f : Declare α) w := .error h

theorem orderly_modify (f : Workspace → Workspace) : Orderly (modify f) w := .ok _

theorem orderly_nextOrder : Orderly nextOrder w := .ok _

theorem Orderly.bind {x : Declare β} {k : β → Declare α} (hx : Orderly x w)
    (hk : Gives x w fun b w' => Orderly (k b) w') : Orderly (x >>= k) w :=
  FailsOnly.bind hx fun r hr => hk r.1 r.2 hr

theorem Orderly.located {x : Declare α} (hx : Orderly x w) (t : Trace) :
    Orderly (YangSchema.located t x) w :=
  FailsOnly.located t hx

theorem Orderly.discard {x : Declare α} (hx : Orderly x w) : Orderly (Functor.discard x) w :=
  hx.bind fun _ _ _ => orderly_pure _

theorem orderly_check {x : Except Fault α} (hx : FailsOnly (Cause.Of .fullDeclaration) x) :
    Orderly (check x) w := by
  intro f hf
  unfold check at hf
  cases x with
  | error =>
    cases hf
    exact hx _ rfl
  | ok => cases hf

theorem orderly_check_bind {x : Except Fault β} {k : β → Declare α}
    (hx : FailsOnly (Cause.Of .fullDeclaration) x) (hk : ∀ b, x = .ok b → Orderly (k b) w) :
    Orderly (check x >>= k) w :=
  (orderly_check hx).bind (gives_check.2 hk)

theorem orderly_edit {e : Edit α} (h : Ends e w.draft (fun _ _ => True)
    fun f _ => f.cause.Of .fullDeclaration) : Orderly (edit e) w := by
  intro f hf
  unfold edit at hf
  split at hf
  · cases hf
  · next he =>
    cases hf
    exact h.of_error he

theorem orderly_edit_bind {e : Edit β} {k : β → Declare α}
    (h : Ends e w.draft (fun b d => Orderly (k b) { w with draft := d })
      fun f _ => f.cause.Of .fullDeclaration) : Orderly (edit e >>= k) w :=
  (orderly_edit (h.mono (fun _ _ _ => trivial) fun _ _ hf => hf)).bind
    (gives_edit (h.mono (fun _ _ hk => hk) fun _ _ _ => trivial))

/-- A loop is orderly if each round is, and keeps an invariant that makes the next one so. -/
theorem orderly_forM {I : List β → Workspace → Prop} {f : β → Declare PUnit} (l : List β) (h : I [] w)
    (hf : ∀ pre x post w, l = pre ++ x :: post → I pre w →
      Orderly (f x) w ∧ Gives (f x) w fun _ w' => I (pre ++ [x]) w') : Orderly (l.forM f) w := by
  suffices H : ∀ post pre w, l = pre ++ post → I pre w → Orderly (post.forM f) w from H l [] w rfl h
  intro post
  induction post with
  | nil => exact fun _ _ _ _ => orderly_pure _
  | cons x post ih =>
    intro pre w hl hI
    obtain ⟨hx, hgives⟩ := hf pre x post w hl hI
    exact hx.bind (hgives.mono fun _ w' hI' => ih (pre ++ [x]) w' (by simp [hl]) hI')

theorem orderly_forM_bind {I : List β → Workspace → Prop} {f : β → Declare PUnit}
    {k : PUnit → Declare α} (l : List β) (h : I [] w)
    (hf : ∀ pre x post w, l = pre ++ x :: post → I pre w →
      Orderly (f x) w ∧ Gives (f x) w fun _ w' => I (pre ++ [x]) w')
    (hk : ∀ w', I l w' → Orderly (k ⟨⟩) w') : Orderly (l.forM f >>= k) w :=
  (orderly_forM l h hf).bind <|
    (gives_forM l h fun pre x post w hl hI => (hf pre x post w hl hI).2).mono fun _ w' hI => hk w' hI

theorem orderly_mapM {I : List β → List γ → Workspace → Prop} {f : β → Declare γ} (l : List β)
    (h : I [] [] w) (hf : ∀ pre x post rs w, l = pre ++ x :: post → I pre rs w →
      Orderly (f x) w ∧ Gives (f x) w fun r w' => I (pre ++ [x]) (rs ++ [r]) w') :
    Orderly (l.mapM f) w := by
  suffices H : ∀ post pre rs w, l = pre ++ post → I pre rs w → Orderly (post.mapM f) w
    from H l [] [] w rfl h
  intro post
  induction post with
  | nil =>
    intro _ _ _ _ _
    rw [List.mapM_nil]
    exact orderly_pure _
  | cons x post ih =>
    intro pre rs w hl hI
    obtain ⟨hx, hgives⟩ := hf pre x post rs w hl hI
    rw [List.mapM_cons]
    refine hx.bind (hgives.mono fun r w' hI' => ?_)
    exact (ih (pre ++ [x]) (rs ++ [r]) w' (by simp [hl]) hI').bind fun _ _ _ => orderly_pure _

theorem orderly_readAll_bind {f : β → Except Fault γ} {t : β → Trace} {l : List β}
    {x : List γ → Declare α} (hf : ∀ c, FailsOnly (Cause.Of .fullDeclaration) (f c))
    (hx : ∀ rs, Orderly (x rs) w) :
    Orderly (l.mapM (fun c => located (t c) (check (f c))) >>= x) w := by
  refine Orderly.bind (orderly_mapM (I := fun _ _ _ => True) l trivial fun _ c _ _ _ _ _ => ?_) ?_
  · exact ⟨(orderly_check (hf c)).located _, fun _ _ _ => trivial⟩
  · refine (gives_readAll l).mono ?_
    rintro rs w' ⟨rfl, -⟩
    exact hx rs

end Declare

namespace Setting

variable {k : Setting} {s : Site} {w : Workspace} {stmt : Statement} {enclosing : List Owner}

/-! ## Single definitions -/

theorem orderly_declareGrouping (hd : w.draft.Sound) (hs : w.draft.HasSite s) :
    Orderly (k.declareGrouping s stmt) w := by
  refine orderly_check_bind stmt.failsOnly_requireArgument fun text _ => ?_
  refine orderly_check_bind stmt.failsOnly_documentation fun docs _ => ?_
  refine Orderly.bind (orderly_pure _) (gives_get.2 ?_)
  refine orderly_edit_bind ((ends_addGrouping _).2 ?_)
  generalize hr : ({
      facts := {
        name := k.prefixes.ownName text
        path := (w.draft.pathOf s).child (k.prefixes.ownName text)
        docs } } : GroupingDraft) = r
  have he : w.draft.Enlarges k.own s (w.draft.withGrouping r) := by
    subst hr
    exact enlarges_withGrouping hd rfl rfl rfl rfl
  have hlt : w.draft.groupings.size < (w.draft.withGrouping r).groupings.size :=
    Shelf.lt_size_push _ _
  refine orderly_edit_bind ((ends_pushGrouping he.sound (he.keeps.hasSite hs) hlt ?_).mono
    (fun _ _ _ => orderly_pure _) ?_)
  · rintro h rfl
    exact hs
  · rintro f _ ⟨problem, hf⟩
    rw [hf]
    exact Cause.of_malformed _ _

theorem orderly_declareTypedef (hd : w.draft.Sound) : Orderly (k.declareTypedef s stmt) w := by
  refine orderly_check_bind stmt.failsOnly_requireArgument fun text _ => ?_
  dsimp only
  split
  · refine orderly_check_bind stmt.failsOnly_documentation fun docs _ => ?_
    refine orderly_edit ((ends_pushTypedef hd _).mono (fun _ _ _ => trivial) ?_)
    rintro f _ ⟨problem, hf⟩
    rw [hf]
    exact Cause.of_malformed _ _
  · exact orderly_throw (Cause.of_malformed _ _)

theorem orderly_declareNode {kind : Except Fault NodeKind} (hd : w.draft.Sound)
    (hs : w.draft.HasSite s) (hkind : FailsOnly (Cause.Of .fullDeclaration) kind) :
    Orderly (k.declareNode s stmt kind) w := by
  refine orderly_check_bind stmt.failsOnly_nodeName fun text _ => ?_
  refine orderly_check_bind hkind fun kind' _ => ?_
  refine orderly_check_bind stmt.failsOnly_documentation fun docs _ => ?_
  refine orderly_check_bind (stmt.failsOnly_valueOf failsOnly_readBool _) fun config _ => ?_
  refine orderly_check_bind stmt.failsOnly_constraints fun constraints _ => ?_
  refine orderly_edit_bind ((ends_addNode _).2 ?_)
  refine Orderly.bind (Orderly.discard (orderly_edit ?_)) fun _ _ _ => orderly_pure _
  refine (ends_attach_withNode hd hs rfl rfl rfl).mono (fun _ _ _ => trivial) ?_
  rintro f _ ⟨problem, hf⟩
  rw [hf]
  exact Cause.of_malformed _ _

/-! ## Uses -/

theorem failsOnly_descendantPath (k : Setting) (stmt : Statement) :
    FailsOnly (Cause.Of .fullDeclaration) (k.descendantPath stmt) := by
  refine stmt.failsOnly_requireArgument.bind fun text _ => ?_
  refine (PathExpr.failsOnly_parse text).bind fun e _ => ?_
  dsimp only
  split
  · exact .malformed _
  · exact (k.prefixes.failsOnly_path e).bind fun _ _ => .ok _

theorem failsOnly_readRefine (k : Setting) (stmt : Statement) :
    FailsOnly (Cause.Of .fullDeclaration) (k.readRefine stmt) := by
  refine (k.failsOnly_descendantPath stmt).bind fun _ _ => ?_
  refine (stmt.failsOnly_valueOf failsOnly_readBool _).bind fun _ _ => ?_
  refine (stmt.failsOnly_valueOf failsOnly_readBool _).bind fun _ _ => ?_
  refine (stmt.failsOnly_valueOf failsOnly_readNatural _).bind fun _ _ => ?_
  refine (stmt.failsOnly_valueOf failsOnly_readBound _).bind fun _ _ => ?_
  refine .bind (.mapM _ fun unknown hunknown => ?_) fun _ _ => .ok _
  obtain ⟨c, -, hc⟩ := List.mem_filterMap.1 hunknown
  exact Statement.failsOnly_unknown? hc

theorem orderly_declareAugment {target : SchemaPath} {order : Nat} :
    Orderly (k.declareAugment stmt target order) w :=
  orderly_check_bind stmt.failsOnly_documentation fun _ _ => orderly_edit ((ends_addAugment _).2 trivial)

/-- The bodies of statements that are not too deep are declared orderly. -/
def DeclaresOrderly (k : Setting) (body : BodyDeclarer) (depth : Nat) : Prop :=
  ∀ (s : Site) (stmt : Statement) (scope : Scope) (enclosing : List Owner) (w : Workspace),
    w.draft.Sound → k.Stands w.draft s enclosing → stmt.depth ≤ depth →
      Orderly (body s stmt scope enclosing) w

theorem InUses.orderly_augment {body : BodyDeclarer} {depth : Nat} (hbody : k.DeclaresBodies body)
    (horderly : k.DeclaresOrderly body depth) (hstands : k.Stands w.draft s enclosing)
    (hd : w.draft.Sound) {u : UsesId} {w₁ : Workspace} (h : k.InUses s enclosing u w w₁)
    {c : Statement} (hc : c.depth ≤ depth) (scope : Scope) :
    Orderly (do
      let target ← Declare.check (k.descendantPath c)
      let a ← k.declareAugment c target (← Declare.nextOrder)
      body (.augment a) c scope (enclosing ++ [.augment a])
      Declare.edit (Draft.editUses u fun r => { r with augmentations := r.augmentations ++ [a] }))
      w₁ := by
  refine orderly_check_bind (k.failsOnly_descendantPath c) fun target _ => ?_
  refine orderly_nextOrder.bind (gives_nextOrder.2 ?_)
  refine orderly_declareAugment.bind ?_
  refine (gives_declareAugment (s := s) (w := { w₁ with nextOrder := w₁.nextOrder + 1 })
    h.enlarges.sound).mono ?_
  rintro a w₂ ⟨ha, -⟩
  have hsound₂ := ha.enlarges.sound
  have hstands₂ := h.stands_augment hstands hd ha
  refine (horderly _ c scope _ w₂ hsound₂ hstands₂ hc).bind ?_
  refine (hbody _ c scope _ w₂ hsound₂ hstands₂).mono fun _ w₃ h₃ => ?_
  exact orderly_edit ((ends_editUses h₃.enlarges.sound.unfrozen _ _).2 trivial)

theorem orderly_declareUses {body : BodyDeclarer} {depth : Nat} (hbody : k.DeclaresBodies body)
    (horderly : k.DeclaresOrderly body depth) (hd : w.draft.Sound)
    (hstands : k.Stands w.draft s enclosing) (hstmt : ∀ c ∈ stmt.children, c.depth ≤ depth)
    (scope : Scope) : Orderly (k.declareUses body s stmt scope enclosing) w := by
  refine orderly_check_bind (stmt.failsOnly_requireArgument.bind fun text _ =>
    k.prefixes.failsOnly_qname text) fun q _ => ?_
  refine orderly_edit_bind ((ends_addUses _).2 ?_)
  generalize hr : ({ facts := { grouping := SchemaPath.root.child q } } : UsesDraft) = r
  have hraug : r.augmentations = [] := by rw [← hr]
  have hunfrozen : (w.draft.withUses r).Unfrozen := hd.unfrozen.withUses r
  refine orderly_edit_bind ((ends_pushUses hunfrozen s _).2 ?_)
  -- the refines are read
  refine orderly_readAll_bind k.failsOnly_readRefine fun refines => ?_
  refine orderly_edit_bind ((ends_editUses (hunfrozen.pushedUses s _) _ _).2 ?_)
  -- the augmentations
  have hstart : k.InUses s enclosing ⟨w.draft.uses.size⟩ w
      { w with draft := w.draft.openedUses s r (refines.map RefineTask.target) } :=
    (InUses.start hd hstands hraug _).1
  refine Orderly.bind (orderly_forM (I := fun _ w' => k.InUses s enclosing ⟨w.draft.uses.size⟩ w w')
    _ hstart fun pre c post w' hl h => ?_) fun _ _ _ => orderly_modify _
  have hc : c ∈ stmt.children :=
    List.mem_of_mem_filter (hl ▸ List.mem_append_right _ List.mem_cons_self : c ∈ stmt.all _)
  refine ⟨(h.orderly_augment hbody horderly hstands hd (hstmt c hc) scope).located _, ?_⟩
  rw [gives_located]
  exact h.gives_augment hbody hstands hd c scope

/-! ## Bodies -/

theorem orderly_declareStatement {body : BodyDeclarer} {depth : Nat} (hbody : k.DeclaresBodies body)
    (horderly : k.DeclaresOrderly body depth) (hd : w.draft.Sound)
    (hstands : k.Stands w.draft s enclosing) (hstmt : stmt.depth ≤ depth) (scope : Scope) :
    Orderly (k.declareStatement body s stmt scope enclosing) w := by
  unfold declareStatement
  split
  · next kind hkind =>
    refine (orderly_declareNode hd hstands.site (Statement.failsOnly_nodeKind? hkind)).bind ?_
    refine (gives_declareNode hd hstands.site (nodeKind?_ne_shorthand hkind)).mono ?_
    rintro i w₁ ⟨x, ha⟩
    exact horderly _ stmt scope enclosing w₁ ha.enlarges.sound
      (hstands.node hd (nodeKind?_ne_shorthand hkind) ha) hstmt
  · split
    · next unknown hunknown =>
      refine orderly_check_bind (Statement.failsOnly_unknown? hunknown) fun u _ => ?_
      exact orderly_edit ((ends_pushUnknown hd _).mono (fun _ _ _ => trivial) fun _ _ h => h.elim)
    · split
      · refine orderly_declareUses hbody horderly hd hstands (fun c hc => ?_) scope
        exact Nat.le_trans (Nat.le_of_lt (Statement.depth_lt_of_mem_children hc)) hstmt
      · exact orderly_declareTypedef hd
      · exact orderly_pure _
      · exact orderly_pure _
      · exact orderly_throw (Cause.of_malformed _ _)
      · exact orderly_throw (Cause.of_malformed _ _)
      · exact orderly_pure _

/-- The fuel is enough for bodies that are no deeper. -/
theorem declaresOrderly (k : Setting) (fuel : Nat) :
    k.DeclaresOrderly (k.declareBodyUpTo fuel) fuel := by
  induction fuel with
  | zero =>
    intro s stmt scope enclosing w _ _ hdepth
    cases stmt
    rw [Statement.depth] at hdepth
    exact absurd hdepth (Nat.not_succ_le_zero _)
  | succ fuel ih =>
    intro s stmt scope enclosing w hd hstands hdepth
    have hbodies := k.declaresBodies fuel
    have hchild : ∀ c ∈ stmt.children, c.depth ≤ fuel := fun c hc =>
      Nat.le_of_lt_succ (Nat.lt_of_lt_of_le (Statement.depth_lt_of_mem_children hc) hdepth)
    rw [declareBodyUpTo]
    -- the groupings, without their bodies
    refine Orderly.bind (orderly_mapM (I := fun _ rs w' => k.GroupingsAdded s w rs w') _
      ⟨.refl hd, by simp⟩ fun pre c post rs w₁ _ h => ?_) ?_
    · have he := h.declares.enlarges
      have hs₁ := he.keeps.hasSite hstands.site
      exact ⟨((orderly_declareGrouping he.sound hs₁).bind fun _ _ _ => orderly_pure _).located _,
        (h.gives_next hstands.site hstands.plain c).mono fun _ _ h => h.1⟩
    refine (gives_declareGroupings hd hstands.site hstands.plain _).mono ?_
    rintro rs w₁ ⟨⟨h₁, hnew⟩, hrs⟩
    dsimp only
    -- their bodies
    refine orderly_forM_bind (I := fun _ w' => k.Declares s w w' ∧
      w₁.draft.groupings.size ≤ w'.draft.groupings.size) rs ⟨h₁, Nat.le_refl _⟩ ?_ ?_
    · rintro pre ⟨⟨q, g⟩, c⟩ post w₂ hl ⟨h₂, hle⟩
      have hmem : ((q, g), c) ∈ rs := by rw [hl]; simp
      obtain ⟨hg, hlt⟩ := hnew _ hmem
      have hlt₂ := Nat.lt_of_lt_of_le hlt hle
      have hc : c.depth ≤ fuel := hchild c (List.mem_of_mem_filter (hrs _ hmem))
      have hstands₂ := hstands.grouping h₂.enlarges hg hlt₂
      refine ⟨(ih _ c _ _ w₂ h₂.enlarges.sound hstands₂ hc).located _, ?_⟩
      rw [gives_located]
      refine (h₂.gives_grouping hbodies hstands hg hlt₂ c _).mono ?_
      exact fun _ w₃ h₃ => ⟨h₃.1, Nat.le_trans hle h₃.2⟩
    -- everything else
    rintro w₂ ⟨h₂, -⟩
    refine orderly_forM (I := fun _ w' => k.Declares s w w') _ h₂ fun pre c post w₃ hl h₃ => ?_
    have hc : c ∈ stmt.children := hl ▸ List.mem_append_right _ List.mem_cons_self
    refine ⟨(orderly_declareStatement hbodies ih h₃.enlarges.sound (hstands.enlarges hd h₃.enlarges)
      (hchild c hc) _).located _, ?_⟩
    rw [gives_located]
    exact h₃.gives_statement hbodies hd hstands c _

/-! ## Statements at the top of a source -/

theorem orderly_editFacts (hd : w.draft.Sound) (f : ModuleFacts → ModuleFacts) :
    Orderly (k.editFacts f) w :=
  orderly_edit ((ends_editModule hd.unfrozen _ _).2 trivial)

theorem failsOnly_absolutePath (k : Setting) (what : String) (stmt : Statement) :
    FailsOnly (Cause.Of .fullDeclaration) (k.absolutePath what stmt) := by
  refine stmt.failsOnly_requireArgument.bind fun text _ => ?_
  refine (PathExpr.failsOnly_parse text).bind fun e _ => ?_
  dsimp only
  split
  · exact .malformed _
  · exact k.prefixes.failsOnly_path e

theorem failsOnly_deviatedModule (k : Setting) (target : SchemaPath) :
    FailsOnly (Cause.Of .fullDeclaration) (k.deviatedModule target) := by
  unfold deviatedModule
  split
  · exact .malformed _
  · split
    · exact .error List.mem_cons_self
    · exact .ok _

theorem orderly_declareTopAugment (h : k.Ready w) : Orderly (k.declareTopAugment stmt) w := by
  refine orderly_check_bind (k.failsOnly_absolutePath _ stmt) fun target _ => ?_
  refine orderly_nextOrder.bind (gives_nextOrder.2 ?_)
  refine orderly_declareAugment.bind ?_
  refine (gives_declareAugment (s := .module k.target)
    (w := { w with nextOrder := w.nextOrder + 1 }) h.sane.sound).mono ?_
  rintro a w₁ ⟨ha, -⟩
  have hsound := ha.enlarges.sound
  refine orderly_edit_bind ((ends_editModule hsound.unfrozen _ _).2 ?_)
  have halike := alike_mapModule (f := fun r => { r with augmentations := r.augmentations ++ [a] })
    hsound.unfrozen (by intro; rfl) (by intro; rfl) (by intro; rfl) k.target
  have hstands := stands_topAugment ha h.sane.sound
  refine Orderly.bind ?_ fun _ _ _ => orderly_modify _
  exact k.declaresOrderly stmt.depth _ stmt [] _ _ (halike.sound hsound) hstands (Nat.le_refl _)

theorem orderly_declareDeviation (h : k.Ready w) : Orderly (k.declareDeviation stmt) w := by
  refine orderly_check_bind (k.failsOnly_absolutePath _ stmt) fun target _ => ?_
  refine orderly_check_bind (k.failsOnly_deviatedModule target) fun deviated _ => ?_
  refine orderly_readAll_bind (fun _ => Statement.failsOnly_readDeviate) fun deviates => ?_
  dsimp only
  refine orderly_nextOrder.bind (gives_nextOrder.2 ?_)
  have hfacts := orderly_editFacts (k := k) (w := { w with nextOrder := w.nextOrder + 1 }) h.sane.sound
  refine (hfacts _).bind fun _ w₁ _ => ?_
  split
  · exact orderly_modify _
  · exact orderly_pure _

theorem orderly_declareTop (h : k.Ready w) : Orderly (k.declareTop stmt) w := by
  have hd := h.sane.sound
  unfold declareTop
  split
  · refine orderly_check_bind stmt.failsOnly_requireArgument fun _ _ => ?_
    exact orderly_check_bind stmt.failsOnly_documentation fun _ _ => orderly_editFacts hd _
  · refine orderly_check_bind stmt.failsOnly_requireArgument fun _ _ => ?_
    exact orderly_check_bind stmt.failsOnly_documentation fun _ _ => orderly_editFacts hd _
  · refine orderly_check_bind stmt.failsOnly_requireArgument fun _ _ => ?_
    refine orderly_check_bind (.mapM _ fun b _ => b.failsOnly_requireArgument.bind fun text _ =>
      k.prefixes.failsOnly_qname text) fun _ _ => ?_
    exact orderly_check_bind stmt.failsOnly_documentation fun _ _ => orderly_editFacts hd _
  · exact orderly_declareTopAugment h
  · exact orderly_declareDeviation h
  · exact orderly_pure _

theorem orderly_declareSource {root : Statement} (h : k.Ready w) :
    Orderly (k.declareSource root) w := by
  refine orderly_forM_bind (I := fun _ w' => k.Ready w') _ h (fun pre c post w₁ _ h₁ => ?_)
    fun w₁ h₁ => ?_
  · refine ⟨(orderly_declareTop h₁).located _, ?_⟩
    rw [gives_located]
    exact (gives_declareTop h₁).mono fun _ _ h => h.1
  · exact k.declaresOrderly root.depth _ root [] _ w₁ h₁.sane.sound h₁.stands
      (Nat.le_refl _)

end Setting

/-! ## Modules -/

section Linked

variable {r : Registry} (h : r.Linked)
include h

theorem orderly_declareModule (config : BuildConfig) (rank : Nat) {s : Source} (hs : s ∈ r.sources)
    {w : Workspace} {modules : List ModuleId} (hw : w.Declared modules) :
    Orderly (declareModule r config rank s) w := by
  obtain ⟨submodules, hsubmodules⟩ := h.includedBy hs
  obtain ⟨own, hown⟩ := h.effectiveIdentity hs
  refine orderly_check_bind (hsubmodules ▸ .ok _) fun submodules' hsubmodules' => ?_
  obtain rfl : submodules = submodules' := Except.ok.inj (hsubmodules.symm.trans hsubmodules')
  refine orderly_check_bind (hown ▸ .ok _) fun own' hown' => ?_
  obtain rfl : own = own' := Except.ok.inj (hown.symm.trans hown')
  refine orderly_edit_bind ?_
  unfold addModule
  rw [ends_bind, ends_get]
  split
  · rw [ends_bind, ends_throw]
    exact List.mem_cons_of_mem _ List.mem_cons_self
  next hnew =>
  have hsane := hw.withModule (r := { facts := s.moduleFacts own submodules }) rfl rfl rfl rfl rfl
    (Option.not_isSome_iff_eq_none.1 hnew)
  rw [ends_modifyGet]
  refine (orderly_modify _).bind ((gives_modify _).2 ?_)
  refine orderly_forM_bind (I := fun _ w' => w'.Sane ∧ w'.Listed ∧
    w'.draft.modules.size = w.draft.modules.size + 1 ∧
      (w'.draft.module ⟨w.draft.modules.size⟩).facts.identity = own) (s :: submodules)
    ⟨hsane.congr rfl rfl rfl, hw.listed.withModule rfl rfl rfl, Shelf.size_push _ _,
      w.identity_openModule _⟩ ?_ fun _ _ => orderly_pure _
  rintro pre part post w₁ hl ⟨hsane₁, hlisted, hsize, hid⟩
  have hpart : part ∈ r.sources := by
    have hmem : part ∈ s :: submodules := by rw [hl]; simp
    rcases List.mem_cons.1 hmem with rfl | hmem
    · exact hs
    · exact Registry.mem_of_includedBy hsubmodules hmem
  refine ⟨orderly_check_bind (h.failsOnly_ofSource hpart) fun prefixes _ =>
    Setting.orderly_declareSource ⟨hsane₁, hlisted, hsize, hid⟩, ?_⟩
  rw [gives_bind, gives_check]
  intro prefixes _
  refine (Setting.gives_declareSource ⟨hsane₁, hlisted, hsize, hid⟩).mono ?_
  rintro - w₂ ⟨⟨h₂, hlisted₂, hsize₂, hid₂⟩, -⟩
  exact ⟨h₂, hlisted₂, hsize₂, hid₂⟩

/-- Linked sources are declared as modules orderly. -/
theorem orderly_declareModules (config : BuildConfig) {order : List Source}
    (horder : ∀ s ∈ order, s ∈ r.sources) : Orderly (declareModules r config order) {} := by
  refine orderly_mapM (I := fun _ modules w => w.Declared modules) _ Workspace.declared_empty ?_
  rintro pre ⟨s, rank⟩ post modules w hl hw
  have hs : s ∈ order := by
    have hmem : (s, rank) ∈ (order.filter (!·.isSubmodule)).zipIdx := by rw [hl]; simp
    exact List.mem_of_mem_filter (List.fst_mem_of_mem_zipIdx hmem)
  exact ⟨orderly_declareModule h config rank (horder s hs) hw,
    (gives_declareModule r config rank s hw).mono fun _ _ h => h.1⟩

end Linked

end YangSchema
