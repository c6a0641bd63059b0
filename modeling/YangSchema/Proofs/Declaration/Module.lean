import YangSchema.Build
import YangSchema.Proofs.Declaration.Body

/-!
# Declaring modules

Whatever sources are declared, the workspace is sane when they are (`gives_declareModules`): the draft
is sound, everything belongs to the module of the place where it was declared, every node has the path
of its place, and every task stands where it says.  The tasks of augmentations come in the order in which
the modules list these (`gives_declareModules_ranked`).
-/

namespace YangSchema

open Draft Edit Declare

/-! ## Sane workspaces -/

/-- The task names a target that leads from the schema root; its augmentation names the same, and has
the same place among the declarations. -/
structure AugmentTask.Stands (t : AugmentTask) (d : Draft) : Prop where
  lt : t.augment.index < d.augments.size
  target : (d.augment t.augment).facts.target = t.target
  order : (d.augment t.augment).facts.order = t.order
  absolute : t.target.absolute = true
  steps : t.target.steps ≠ []
  /-- It stands in no uses. -/
  loose : ∀ u, t.augment ∉ (d.usesOf u).augmentations

theorem AugmentTask.Stands.keeps {t : AugmentTask} {d d' : Draft} (h : t.Stands d)
    (hk : d.Keeps d') (hu : ∀ u, t.augment ∈ (d'.usesOf u).augmentations →
      t.augment ∈ (d.usesOf u).augmentations) : t.Stands d' where
  lt := Nat.lt_of_lt_of_le h.lt hk.augments_le
  target := (hk.target _ h.lt).trans h.target
  order := (hk.order _ h.lt).trans h.order
  absolute := h.absolute
  steps := h.steps
  loose u hmem := h.loose u (hu u hmem)

/-- What is so between any two declarations at the top of a source. -/
structure Workspace.Sane (w : Workspace) : Prop where
  sound : w.draft.Sound
  uses : ∀ t ∈ w.tasks.uses, t.Stands w.draft
  augments : ∀ t ∈ w.tasks.augments, t.Stands w.draft
  /-- A body holds names of its own module only. -/
  named : ∀ (i : NodeId) (b : Owner), w.draft.Under (.node i) b.site →
    (w.draft.node i).name.owner = w.draft.homeOf b
  paths : ∀ t, ∀ c ∈ w.draft.childrenOf t,
    (w.draft.node c).path = (w.draft.pathOf t).child (w.draft.node c).name
  shorthands : ∀ i, (w.draft.node i).kind = .caseNode true →
    ∃ c, w.draft.childrenOf (.node i) = [c] ∧ w.draft.CaseOf i c
  /-- Shorthand cases stand under choices. -/
  unwrapped : ∀ t, w.draft.isChoice t = false → ∀ c ∈ w.draft.childrenOf t,
    (w.draft.node c).kind ≠ .caseNode true
  /-- No two modules have one identity. -/
  identities : ∀ i j, i.index < w.draft.modules.size → j.index < w.draft.modules.size →
    (w.draft.module i).facts.identity = (w.draft.module j).facts.identity → i = j
  pristine : w.draft.Pristine
  homely : w.draft.Homely
  /-- The tasks are recorded in the order in which their augmentations are made. -/
  ascending : w.tasks.augments.Pairwise fun t u => t.augment.index < u.augment.index
  /-- No uses has two tasks. -/
  distinct : (w.tasks.uses.map UsesTask.uses).Nodup

namespace Workspace.Sane

variable {w w' : Workspace} {k : Setting} {s : Site} {enclosing : List Owner}

/-- Only the draft, the uses and the augmentations matter. -/
theorem congr (h : w.Sane) (hd : w'.draft = w.draft) (hu : w'.tasks.uses = w.tasks.uses)
    (ha : w'.tasks.augments = w.tasks.augments) : w'.Sane := by
  refine ⟨?_, ?_, ?_, ?_, ?_, ?_, ?_, ?_, ?_, ?_, ?_, ?_⟩
  · rw [hd]; exact h.sound
  · rw [hd, hu]; exact h.uses
  · rw [hd, ha]; exact h.augments
  · rw [hd]; exact h.named
  · rw [hd]; exact h.paths
  · rw [hd]; exact h.shorthands
  · rw [hd]; exact h.unwrapped
  · rw [hd]; exact h.identities
  · rw [hd]; exact h.pristine
  · rw [hd]; exact h.homely
  · rw [ha]; exact h.ascending
  · rw [hu]; exact h.distinct

/-- Declarations at a site keep the workspace sane. -/
theorem declares (h : w.Sane) (hs : k.Stands w.draft s enclosing) (hw : k.Declares s w w') :
    w'.Sane := by
  have he := hw.enlarges
  obtain ⟨more, hmore, hall⟩ := hw.tasks
  have hhomely := h.homely.enlarges h.pristine h.sound hs.home he
  refine ⟨he.sound, fun t ht => ?_, fun t ht => ?_, fun _ _ => hhomely.named he.sound, fun t c hc => ?_,
    fun i hi => ?_, fun t ht c hc => ?_, fun i j hi hj hij => ?_, he.pristine h.pristine, hhomely,
    by rw [hmore]; exact h.ascending, ?_⟩
  · rw [hmore] at ht
    rcases List.mem_append.1 ht with ht | ht
    · exact (h.uses t ht).enlarges h.sound he
    · exact (hall t ht).1
  · rw [hmore] at ht
    have hstands := h.augments t ht
    exact hstands.keeps he.keeps fun u => he.mem_augmentations hstands.lt
  · by_cases hlt : c.index < w.draft.nodes.size
    · have hc' := he.keeps.mem_childrenOf h.sound he.sound hc hlt
      rw [he.keeps.path c hlt, he.keeps.name c hlt, he.keeps.pathOf (hasSite_of_mem_childrenOf hc')]
      exact h.paths t c hc'
    · exact he.paths t c hc (Nat.not_lt.1 hlt)
  · by_cases hlt : i.index < w.draft.nodes.size
    · rw [he.keeps.kind i hlt] at hi
      rw [he.childrenOf (.node i) hlt fun his => hs.plain i his.symm hi]
      obtain ⟨c, hc, hcase⟩ := h.shorthands i hi
      exact ⟨c, hc, hcase.keeps h.sound he.keeps⟩
    · by_cases hlt' : i.index < w'.draft.nodes.size
      · exact he.shorthands i (Nat.not_lt.1 hlt) hlt' hi
      · rw [node_of_size_le (Nat.not_lt.1 hlt')] at hi
        cases hi
  · by_cases hlt : c.index < w.draft.nodes.size
    · have hc' := he.keeps.mem_childrenOf h.sound he.sound hc hlt
      rw [he.keeps.isChoice (hasSite_of_mem_childrenOf hc')] at ht
      rw [he.keeps.kind c hlt]
      exact h.unwrapped t ht c hc'
    · exact he.unwrapped t ht c hc (Nat.not_lt.1 hlt)
  · rw [he.modules_size] at hi hj
    rw [he.keeps.identity i hi, he.keeps.identity j hj] at hij
    exact h.identities i j hi hj hij
  · have hmore := congrArg Tasks.uses hmore
    have hdistinct := hw.distinct more hmore
    rw [hmore, List.map_append]
    exact nodup_map_append h.distinct hdistinct (fun t ht => (h.uses t ht).uses)
      fun t ht => (hall t ht).2.2

/-- So do changes of what the definitions say. -/
theorem alike (h : w.Sane) (hd : w.draft.Alike w'.draft) (hpristine : w'.draft.Pristine)
    (hhomely : w'.draft.Homely) (hu : w'.tasks.uses = w.tasks.uses)
    (ha : w'.tasks.augments = w.tasks.augments) : w'.Sane := by
  have hk := hd.keeps
  have hpath : ∀ t, w'.draft.pathOf t = w.draft.pathOf t := by
    intro t
    cases t with
    | module m => rfl
    | node i => exact hd.path i
    | grouping g => exact hd.grouping_path g
    | augment a => exact hd.target a
  have hsound := hd.sound h.sound
  refine ⟨hsound, fun t ht => ?_, fun t ht => ?_, fun _ _ => hhomely.named hsound, fun t c hc => ?_,
    fun i hi => ?_, fun t ht c hc => ?_, fun i j hi hj hij => ?_, hpristine, hhomely, ha ▸ h.ascending,
    hu ▸ h.distinct⟩
  · exact (h.uses t (hu ▸ ht)).keeps h.sound hk (fun u _ => hd.augmentations u)
      fun _ u _ hmem => hd.augmentations u ▸ hmem
  · exact (h.augments t (ha ▸ ht)).keeps hk fun u hmem => hd.augmentations u ▸ hmem
  · rw [hd.childrenOf] at hc
    rw [hd.path, hd.name, hpath]
    exact h.paths t c hc
  · rw [hd.kind] at hi
    rw [hd.childrenOf]
    obtain ⟨c, hc, hcase⟩ := h.shorthands i hi
    exact ⟨c, hc, hcase.keeps h.sound hk⟩
  · rw [hd.childrenOf] at hc
    rw [hd.kind]
    refine h.unwrapped t ?_ c hc
    cases t with
    | node i =>
      replace ht : (w'.draft.node i).kind.isChoice = false := ht
      rw [hd.kind] at ht
      exact ht
    | _ => rfl
  · rw [hd.modules_size] at hi hj
    rw [hd.identity, hd.identity] at hij
    exact h.identities i j hi hj hij

end Workspace.Sane

/-- Every augmentation that a module lists has its task. -/
def Workspace.Listed (w : Workspace) : Prop :=
  ∀ i, ∀ a ∈ (w.draft.module i).augmentations, ∃ t ∈ w.tasks.augments, t.augment = a

theorem Workspace.Listed.congr {w w' : Workspace} (h : w.Listed)
    (hd : ∀ i, (w'.draft.module i).augmentations = (w.draft.module i).augmentations)
    (ht : w'.tasks.augments = w.tasks.augments) : w'.Listed := by
  intro i a ha
  rw [hd] at ha
  rw [ht]
  exact h i a ha

theorem Workspace.Listed.declares {w w' : Workspace} {k : Setting} {s : Site} (h : w.Listed)
    (hw : k.Declares s w w') : w'.Listed := by
  obtain ⟨more, hmore, -⟩ := hw.tasks
  exact h.congr hw.enlarges.tops (by rw [hmore])

/-- From `w` to `w'` the module `m` lists more augmentations, and these have tasks of the given rank, in
the same order. -/
structure Workspace.Lists (m : ModuleId) (rank : Nat) (w w' : Workspace) : Prop where
  listed : ∃ more : List AugmentTask, w'.tasks.augments = w.tasks.augments ++ more ∧
    (∀ t ∈ more, t.rank = rank) ∧ (w'.draft.module m).augmentations =
      (w.draft.module m).augmentations ++ more.map AugmentTask.augment
  others : ∀ i, i ≠ m → (w'.draft.module i).augmentations = (w.draft.module i).augmentations

namespace Workspace.Lists

variable {w w' w'' : Workspace} {m : ModuleId} {rank : Nat}

/-- Nothing more is listed. -/
theorem of_tops (hd : ∀ i, (w'.draft.module i).augmentations = (w.draft.module i).augmentations)
    (ht : w'.tasks.augments = w.tasks.augments) : w.Lists m rank w' where
  listed := by
    refine ⟨[], ?_, fun _ h => (by cases h), ?_⟩
    · rw [ht, List.append_nil]
    · rw [hd, List.map_nil, List.append_nil]
  others i _ := hd i

theorem trans (h : w.Lists m rank w') (h' : w'.Lists m rank w'') : w.Lists m rank w'' where
  listed := by
    obtain ⟨more, htasks, hrank, hmore⟩ := h.listed
    obtain ⟨more', htasks', hrank', hmore'⟩ := h'.listed
    refine ⟨more ++ more', ?_, fun t ht => ?_, ?_⟩
    · rw [htasks', htasks, List.append_assoc]
    · exact (List.mem_append.1 ht).elim (hrank t) (hrank' t)
    · rw [hmore', hmore, List.map_append, List.append_assoc]
  others i hi := (h'.others i hi).trans (h.others i hi)

theorem declares {k : Setting} {s : Site} (h : k.Declares s w w') : w.Lists m rank w' := by
  obtain ⟨more, hmore, -⟩ := h.tasks
  exact of_tops h.enlarges.tops (by rw [hmore])

theorem listed_of (h : w.Lists m rank w') (hw : w.Listed) : w'.Listed := by
  obtain ⟨more, htasks, -, hmore⟩ := h.listed
  intro i a ha
  rw [htasks]
  by_cases him : i = m
  · subst him
    rw [hmore] at ha
    rcases List.mem_append.1 ha with ha | ha
    · obtain ⟨t, ht, rfl⟩ := hw i a ha
      exact ⟨t, List.mem_append_left _ ht, rfl⟩
    · obtain ⟨t, ht, rfl⟩ := List.mem_map.1 ha
      exact ⟨t, List.mem_append_right _ ht, rfl⟩
  · rw [h.others i him] at ha
    obtain ⟨t, ht, rfl⟩ := hw i a ha
    exact ⟨t, List.mem_append_left _ ht, rfl⟩

end Workspace.Lists

/-! ## Statements at the top of a source -/

theorem Statement.ListsAs.definedNames {stmt : Statement} {q q' : QName} {f : ModuleFacts → ModuleFacts}
    (h : stmt.ListsAs q f) {r : ModuleFacts} (hq' : q' ∈ (f r).definedNames) :
    q' ∈ r.definedNames ∨ q' = q := by
  cases h with
  | _ _ x hx =>
    simp only [ModuleFacts.definedNames, List.map_append, List.map_cons, List.map_nil, hx,
      List.mem_append, List.mem_singleton] at hq' ⊢
    tauto

namespace Setting

variable {k : Setting} {w : Workspace}

/-- A body may be declared at the top of a module. -/
theorem stands_module {d : Draft} (h : k.target.index < d.modules.size)
    (hown : (d.module k.target).facts.identity = k.own) : k.Stands d (.module k.target) [] := by
  refine ⟨h, fun i hi => (by cases hi), hown, fun b hb => ?_, fun a ha => (by cases ha),
    fun a ha => (by cases ha)⟩
  exact absurd (hb.eq_of_root fun i hi => (by cases hi)).symm (b.site_ne_module _)

/-- The workspace between two statements: sane, with the module there. -/
structure Ready (k : Setting) (w : Workspace) : Prop where
  sane : w.Sane
  listed : w.Listed
  /-- The module at hand is the last one. -/
  target : w.draft.modules.size = k.target.index + 1
  own : (w.draft.module k.target).facts.identity = k.own

theorem Ready.lt (h : k.Ready w) : k.target.index < w.draft.modules.size := by
  rw [h.target]
  exact Nat.lt_succ_self _

theorem Ready.stands (h : k.Ready w) : k.Stands w.draft (.module k.target) [] :=
  stands_module h.lt h.own

theorem Ready.own_of_keeps {d : Draft} (h : k.Ready w) (hk : w.draft.Keeps d) :
    (d.module k.target).facts.identity = k.own :=
  (hk.identity k.target h.lt).trans h.own

/-- What a module says more of itself is named in it. -/
theorem gives_editFacts (names : List QName) {f : ModuleFacts → ModuleFacts}
    (hf : ∀ r, (f r).heading = r.heading)
    (hdefined : ∀ r, ∀ q ∈ (f r).definedNames, q ∈ r.definedNames ∨ q ∈ names)
    (hnames : ∀ q ∈ names, q.owner = k.own) (h : k.Ready w) :
    Gives (k.editFacts f) w fun _ w' => k.Ready w' ∧ w.draft.Keeps w'.draft ∧
      w.Lists k.target k.rank w' := by
  unfold editFacts
  have hd := h.sane.sound
  refine gives_edit ((ends_editModule hd.unfrozen _ _).2 ?_)
  have hrestated := Restated.mapModule names hd.unfrozen hf hdefined k.target
  have hk := hrestated.keeps
  have hdeclares : k.Declares (.module k.target) w { w with draft := w.draft.mapModule k.target fun r =>
    { r with facts := f r.facts } } := .of_enlarges (hrestated.enlarges hd hnames) rfl
  refine ⟨⟨h.sane.declares h.stands hdeclares, h.listed.congr hrestated.tops rfl, ?_, h.own_of_keeps hk⟩,
    hk, .of_tops hrestated.tops rfl⟩
  rw [hrestated.modules_size]
  exact h.target

/-! ### An augmentation at the top

The augmentation `a` is added, which leads from `w` to `w₁`, the module lists it, and its body is
declared, which leads to `w₃`. -/

section TopAugment

variable {target : SchemaPath} {order : Nat} {a : AugmentId} {w₁ w₃ : Workspace}
  (ha : k.AugmentAdded (.module k.target) target order w.draft a w₁.draft)
include ha

/-- The body of a new augmentation that the module lists may be declared. -/
theorem stands_topAugment (hd : w.draft.Sound) :
    k.Stands (w₁.draft.mapModule k.target fun r => { r with augmentations := r.augmentations ++ [a] })
      (.augment a) [.augment a] := by
  show k.Stands _ (.augment a) ([] ++ [.augment a])
  exact stands_augment ha.lt ha.home (ha.loose hd) fun b hb => (by cases hb)

/-- The workspace is as good as it was, with the augmentation listed. -/
theorem Ready.sane_topAugment (h : k.Ready w) (htasks : w₁.tasks = w.tasks) :
    Workspace.Sane { w₁ with draft := w₁.draft.mapModule k.target fun r =>
      { r with augmentations := r.augmentations ++ [a] } } := by
  have hsane₁ : w₁.Sane := h.sane.declares h.stands (.of_enlarges ha.enlarges htasks)
  have hunfrozen := ha.enlarges.sound.unfrozen
  have halike := alike_mapModule (f := fun r => { r with augmentations := r.augmentations ++ [a] })
    hunfrozen (by intro; rfl) (by intro; rfl) (by intro; rfl) k.target
  have hhome : (w₁.draft.augment a).facts.home = (w₁.draft.module k.target).facts.identity :=
    ha.home.trans (h.own_of_keeps ha.enlarges.keeps).symm
  exact hsane₁.alike halike (hsane₁.pristine.mapModule _ fun _ hg => .inl hg)
    (hsane₁.homely.listAugment hunfrozen k.target ha.lt hhome) rfl rfl

variable (hb : k.Declares (.augment a) { w₁ with draft := w₁.draft.mapModule k.target fun r =>
  { r with augmentations := r.augmentations ++ [a] } } w₃)
include hb

theorem keeps_topAugment : w.draft.Keeps w₃.draft := by
  have halike := alike_mapModule (f := fun r => { r with augmentations := r.augmentations ++ [a] })
    ha.enlarges.sound.unfrozen (by intro; rfl) (by intro; rfl) (by intro; rfl) k.target
  exact (ha.enlarges.keeps.trans halike.keeps).trans hb.enlarges.keeps

theorem modules_size_topAugment : w₃.draft.modules.size = w.draft.modules.size := by
  rw [hb.enlarges.modules_size]
  show (Shelf.update _ _ _).size = _
  rw [Shelf.size_update, ha.enlarges.modules_size]

/-- The module lists one augmentation more, and that is the one of the new task. -/
theorem Ready.lists_topAugment (h : k.Ready w) (htasks : w₃.tasks.augments = w.tasks.augments)
    {t : AugmentTask} (ht : t.augment = a) (hrank : t.rank = k.rank) :
    w.Lists k.target k.rank { w₃ with tasks := { w₃.tasks with
      augments := w₃.tasks.augments ++ [t] } } := by
  refine ⟨⟨[t], by rw [htasks], ?_, ?_⟩, fun i hi => ?_⟩
  · intro t' ht'
    rw [List.mem_singleton.1 ht', hrank]
  · show (w₃.draft.module k.target).augmentations = _
    rw [hb.enlarges.tops, module_mapModule, if_pos ⟨rfl, ha.enlarges.modules_size ▸ h.lt⟩,
      ← ha.enlarges.tops, List.map_singleton, ht]
  · show (w₃.draft.module i).augmentations = _
    rw [hb.enlarges.tops, module_mapModule, if_neg fun hik => hi hik.1.symm, ha.enlarges.tops]

/-- The task of the augmentation stands. -/
theorem task_topAugment (hd : w.draft.Sound) {t : AugmentTask} (ht : t.augment = a)
    (htarget : t.target = target) (horder : t.order = order) (habs : target.absolute = true)
    (hsteps : target.steps ≠ []) : t.Stands w₃.draft := by
  have hk := hb.enlarges.keeps
  refine {
    lt := by rw [ht]; exact Nat.lt_of_lt_of_le ha.lt hk.augments_le
    target := by rw [ht, htarget]; exact (hk.target a ha.lt).trans ha.target
    order := by rw [ht, horder]; exact (hk.order a ha.lt).trans ha.order
    absolute := by rw [htarget]; exact habs
    steps := by rw [htarget]; exact hsteps
    loose := fun u hu => ?_ }
  rw [ht] at hu
  exact ha.loose hd u (hb.enlarges.mem_augmentations ha.lt hu)

end TopAugment

theorem gives_declareTopAugment {stmt : Statement} (h : k.Ready w) :
    Gives (k.declareTopAugment stmt) w fun _ w' => k.Ready w' ∧ w.draft.Keeps w'.draft ∧
      w.Lists k.target k.rank w' := by
  unfold declareTopAugment
  rw [gives_bind, gives_check]
  intro target htarget
  rw [gives_bind, gives_nextOrder, gives_bind]
  have hsound := h.sane.sound
  refine (gives_declareAugment (s := .module k.target)
    (w := { w with nextOrder := w.nextOrder + 1 }) hsound).mono ?_
  intro a w₁ hadded
  have ha : k.AugmentAdded (.module k.target) target w.nextOrder w.draft a w₁.draft := hadded.1
  have htasks : w₁.tasks = w.tasks := hadded.2
  -- the module lists the augmentation
  rw [gives_bind]
  refine gives_edit ((ends_editModule ha.enlarges.sound.unfrozen _ _).2 ?_)
  have hsane₂ := h.sane_topAugment ha htasks
  have hstands₂ := stands_topAugment ha hsound
  rw [gives_bind]
  refine (k.declaresBodies stmt.depth _ stmt [] _ _ hsane₂.sound hstands₂).mono ?_
  rintro - w₃ h₃
  refine (gives_addAugmentTask _).2 ?_
  have hsane₃ := hsane₂.declares hstands₂ h₃
  have hk₃ := keeps_topAugment ha h₃
  obtain ⟨habs, hsteps⟩ := absolute_of_absolutePath htarget
  have htasks₃ : w₃.tasks.augments = w.tasks.augments := by
    obtain ⟨more, hmore, -⟩ := h₃.tasks
    rw [hmore, ← htasks]
  have hlists := h.lists_topAugment ha h₃ htasks₃
    (t := ⟨a, target, w.nextOrder, k.rank, k.trace stmt⟩) rfl rfl
  refine ⟨⟨{ hsane₃ with augments := fun t ht => ?_, ascending := ?_ },
    hlists.listed_of h.listed, ?_, h.own_of_keeps hk₃⟩, hk₃, hlists⟩
  · rcases List.mem_append.1 ht with ht | ht
    · exact hsane₃.augments t ht
    · rw [List.mem_singleton.1 ht]
      exact task_topAugment ha h₃ hsound rfl rfl rfl habs hsteps
  · show List.Pairwise _ (w₃.tasks.augments ++ _)
    rw [htasks₃]
    refine List.pairwise_append.2 ⟨h.sane.ascending, List.pairwise_singleton _ _, fun t ht u hu => ?_⟩
    rw [List.mem_singleton.1 hu]
    exact Nat.lt_of_lt_of_le (h.sane.augments t ht).lt ha.new
  · exact (modules_size_topAugment ha h₃).trans h.target

theorem gives_declareDeviation {stmt : Statement} (h : k.Ready w) :
    Gives (k.declareDeviation stmt) w fun _ w' => k.Ready w' ∧ w.draft.Keeps w'.draft ∧
      w.Lists k.target k.rank w' := by
  refine gives_declareDeviation_of fun x deviated _ _ => ?_
  have hready : k.Ready { w with nextOrder := w.nextOrder + 1 } :=
    ⟨h.sane.congr rfl rfl rfl, h.listed.congr (fun _ => rfl) rfl, h.target, h.own⟩
  refine (gives_editFacts [] (by intro; rfl) (by intro r q hq; exact .inl hq) (fun q hq => by cases hq)
    hready).mono ?_
  rintro - w₁ ⟨h₁, hk, hlists⟩
  refine ⟨⟨h₁, hk, ⟨hlists.listed, hlists.others⟩⟩, fun t => ?_⟩
  exact ⟨⟨h₁.sane.congr rfl rfl rfl, h₁.listed.congr (fun _ => rfl) rfl, h₁.target, h₁.own⟩, hk,
    ⟨hlists.listed, hlists.others⟩⟩

theorem gives_declareTop {stmt : Statement} (h : k.Ready w) :
    Gives (k.declareTop stmt) w fun _ w' => k.Ready w' ∧ w.draft.Keeps w'.draft ∧
      w.Lists k.target k.rank w' := by
  refine gives_declareTop_of (fun text f _ hf => ?_) (fun _ => gives_declareTopAugment h)
    (fun _ => gives_declareDeviation h) fun _ _ _ _ _ => ⟨h, .refl _, .of_tops (fun _ => rfl) rfl⟩
  refine gives_editFacts [k.prefixes.ownName text] hf.heading (fun r q hq => ?_) (fun q hq => ?_) h
  · exact (hf.definedNames hq).imp_right List.mem_singleton.2
  · rw [List.mem_singleton.1 hq]
    rfl

theorem gives_declareSource {root : Statement} (h : k.Ready w) :
    Gives (k.declareSource root) w fun _ w' => k.Ready w' ∧ w.draft.Keeps w'.draft ∧
      w.Lists k.target k.rank w' := by
  unfold declareSource
  rw [gives_bind]
  refine (gives_forM (I := fun _ w' => k.Ready w' ∧ w.draft.Keeps w'.draft ∧ w.Lists k.target k.rank w')
    _ ⟨h, .refl _, .of_tops (fun _ => rfl) rfl⟩ ?_).mono ?_
  · rintro pre c post w₁ - ⟨h₁, hk₁, hl₁⟩
    rw [gives_located]
    exact (gives_declareTop h₁).mono fun _ w₂ ⟨h₂, hk₂, hl₂⟩ => ⟨h₂, hk₁.trans hk₂, hl₁.trans hl₂⟩
  · rintro - w₁ ⟨h₁, hk₁, hl₁⟩
    refine (k.declaresBodies root.depth _ root [] _ w₁ h₁.sane.sound h₁.stands).mono ?_
    intro _ w₂ h₂
    have hk₂ := h₂.enlarges.keeps
    exact ⟨⟨h₁.sane.declares h₁.stands h₂, h₁.listed.declares h₂,
      by rw [h₂.enlarges.modules_size]; exact h₁.target, h₁.own_of_keeps hk₂⟩, hk₁.trans hk₂,
      hl₁.trans (.declares h₂)⟩

end Setting

/-! ## Modules -/

namespace Draft

variable {d : Draft}

theorem usesAt_withModule {r : ModuleDraft} (hu : r.uses = []) (s : Site) :
    (d.withModule r).usesAt s = d.usesAt s := by
  cases s with
  | module i =>
    show ((d.withModule r).module i).uses = (d.module i).uses
    rw [module_withModule]
    split
    · next hi => rw [module_of_size_le (Nat.le_of_eq hi.symm), hu]; rfl
    · rfl
  | _ => rfl

theorem Sound.withModule (hd : d.Sound) {r : ModuleDraft} (hc : r.children = [])
    (hu : r.uses = []) : (d.withModule r).Sound := by
  refine ⟨hd.unfrozen.withModule r, fun t c => ?_,
    fun t u h => hd.uses_lt t u (usesAt_withModule hu t ▸ h), hd.augment_lt, ?_⟩
  · rw [childrenOf_withModule hc]
    exact hd.parent_iff t c
  · have hcontains : (d.withModule r).Contains = d.Contains := by
      funext y x
      cases x with
      | site s => simp only [Contains, contents, childrenOf_withModule hc, usesAt_withModule hu]
      | uses u => rfl
    rw [hcontains]
    exact hd.wf

theorem Keeps.withModule (d : Draft) {r : ModuleDraft} (hc : r.children = []) (hu : r.uses = []) :
    d.Keeps (d.withModule r) :=
  { Keeps.refl d with
    modules_le := Shelf.size_le_size_push _ _
    children := fun t _ => by rw [childrenOf_withModule hc]
    usesAt := fun t _ => by rw [usesAt_withModule hu]
    heading := fun m hm => by rw [module_withModule, if_neg (Nat.ne_of_lt hm)] }

theorem Homely.withModule (h : d.Homely) {r : ModuleDraft} (hc : r.children = []) (hu : r.uses = [])
    (hg : r.groupings = []) (ha : r.augmentations = []) (hnames : r.facts.definedNames = []) :
    (d.withModule r).Homely := by
  -- nothing stands in the new module, so no home is asked for that was not there
  have hhome : ∀ {s}, d.HasSite s → (d.withModule r).homeAt s = d.homeAt s :=
    (Keeps.withModule d hc hu).homeAt
  refine ⟨fun s c hcs => ?_, fun s g hgs => ?_, fun s u hus a hau => ?_, fun i a hai => ?_,
    fun i q hq => ?_⟩
  · rw [childrenOf_withModule hc] at hcs
    rw [hhome (hasSite_of_mem_childrenOf hcs)]
    exact h.children s c hcs
  · have hold : g ∈ d.groupingsAt s := by
      cases s with
      | module i =>
        change g ∈ ((d.withModule r).module i).groupings at hgs
        rw [module_withModule] at hgs
        split at hgs
        · rw [hg] at hgs
          cases hgs
        · exact hgs
      | _ => exact hgs
    rw [hhome (hasSite_of_mem_groupingsAt hold)]
    exact h.groupings s g hold
  · rw [usesAt_withModule hu] at hus
    rw [hhome (hasSite_of_mem_usesAt hus)]
    exact h.inner s u hus a hau
  · rw [module_withModule] at hai
    split at hai
    · rw [ha] at hai
      cases hai
    · next hi =>
      have hhome' : (d.withModule r).homeAt (.module i) = d.homeAt (.module i) := by
        rw [homeAt, module_withModule, if_neg hi]
        rfl
      rw [hhome']
      exact h.tops i a hai
  · rw [module_withModule] at hq
    split at hq
    · rw [hnames] at hq
      cases hq
    · rw [hhome (hasSite_of_mem_definedNames hq)]
      exact h.defined i q hq

end Draft

theorem Draft.identity_ne_of_moduleOf? {d : Draft} {m : ModuleIdentity} (h : d.moduleOf? m = none)
    {i : ModuleId} (hi : i.index < d.modules.size) : (d.module i).facts.identity ≠ m := by
  unfold moduleOf? at h
  rw [Option.map_eq_none_iff, Array.findIdx?_eq_none_iff] at h
  have := h _ (Array.getElem_mem hi)
  have hread : d.module i = d.modules.slots[i.index].record := by
    unfold Draft.module Shelf.read
    rw [Array.getElem?_eq_getElem hi]
    rfl
  rw [hread]
  simpa using this

theorem Workspace.Sane.withModule {w : Workspace} (h : w.Sane) {r : ModuleDraft}
    (hc : r.children = []) (hu : r.uses = []) (hg : r.groupings = []) (ha : r.augmentations = [])
    (hnames : r.facts.definedNames = []) (hnew : w.draft.moduleOf? r.facts.identity = none) :
    Workspace.Sane { w with draft := w.draft.withModule r } := by
  have hk := Keeps.withModule w.draft hc hu
  have hsound := h.sound.withModule hc hu
  have hhomely := h.homely.withModule hc hu hg ha hnames
  refine ⟨hsound, fun t ht => ?_, fun t ht => ?_, fun _ _ => hhomely.named hsound, fun t c hct => ?_,
    fun i hi => ?_, fun t ht c hct => ?_, fun i j hi hj hij => ?_, h.pristine.withModule hg, hhomely,
    h.ascending, h.distinct⟩
  · exact (h.uses t ht).keeps h.sound hk (fun _ _ => rfl) fun _ _ _ hmem => hmem
  · exact (h.augments t ht).keeps hk fun _ => id
  · replace hct : c ∈ w.draft.childrenOf t := childrenOf_withModule hc t ▸ hct
    have := h.paths t c hct
    cases t <;> exact this
  · obtain ⟨c, hc, hcase⟩ := h.shorthands i hi
    exact ⟨c, hc, hcase.first, hcase.name, hcase.not_case⟩
  · replace hct : c ∈ w.draft.childrenOf t := childrenOf_withModule hc t ▸ hct
    refine h.unwrapped t ?_ c hct
    cases t <;> exact ht
  · -- the new module has an identity of its own
    have hsize : (w.draft.modules.push r).size = w.draft.modules.size + 1 := Shelf.size_push _ _
    replace hi : i.index < (w.draft.modules.push r).size := hi
    replace hj : j.index < (w.draft.modules.push r).size := hj
    rw [hsize] at hi hj
    rw [module_withModule, module_withModule] at hij
    have hold : ∀ l : ModuleId, l.index < w.draft.modules.size + 1 →
        ¬ l.index = w.draft.modules.size → l.index < w.draft.modules.size := by omega
    split at hij
    · next hi' =>
      split at hij
      · next hj' =>
        cases i
        cases j
        exact congrArg ModuleId.mk (hi'.trans hj'.symm)
      · next hj' => exact absurd hij.symm (identity_ne_of_moduleOf? hnew (hold j hj hj'))
    · next hi' =>
      split at hij
      · next hj' => exact absurd hij (identity_ne_of_moduleOf? hnew (hold i hi hi'))
      · next hj' => exact h.identities i j (hold i hi hi') (hold j hj hj') hij

/-- A new module lists no augmentation. -/
theorem Draft.tops_withModule {d : Draft} {r : ModuleDraft} (hr : r.augmentations = []) (i : ModuleId) :
    ((d.withModule r).module i).augmentations = (d.module i).augmentations := by
  rw [module_withModule]
  split
  · next hi =>
    rw [module_of_size_le (Nat.le_of_eq hi.symm), hr]
    rfl
  · rfl

theorem Workspace.Listed.withModule {w w' : Workspace} (h : w.Listed) {r : ModuleDraft}
    (hr : r.augmentations = []) (hd : w'.draft = w.draft.withModule r)
    (ht : w'.tasks.augments = w.tasks.augments) : w'.Listed := by
  refine h.congr (fun i => ?_) ht
  rw [hd, tops_withModule hr]

/-- What is so between the declarations of two modules. -/
structure Workspace.Declared (modules : List ModuleId) (w : Workspace) : Prop extends w.Sane where
  listed : w.Listed
  mem_modules : ∀ i : ModuleId, i ∈ modules ↔ i.index < w.draft.modules.size

/-- The workspace with a new module, of which nothing is declared yet. -/
def Workspace.openModule (w : Workspace) (facts : ModuleFacts) : Workspace :=
  { w with draft := w.draft.withModule { facts }, nextOrder := 0 }

theorem Workspace.lt_openModule (w : Workspace) (facts : ModuleFacts) :
    w.draft.modules.size < (w.openModule facts).draft.modules.size := Shelf.lt_size_push _ _

theorem Workspace.facts_openModule (w : Workspace) (facts : ModuleFacts) :
    ((w.openModule facts).draft.module ⟨w.draft.modules.size⟩).facts = facts := by
  show ((w.draft.withModule _).module _).facts = _
  rw [module_withModule_self]

theorem Workspace.identity_openModule (w : Workspace) (facts : ModuleFacts) :
    ((w.openModule facts).draft.module ⟨w.draft.modules.size⟩).facts.identity = facts.identity :=
  congrArg ModuleFacts.identity (w.facts_openModule facts)

/-- The heading is that of a module whose own source is `s`, with the submodules that it includes. -/
def Registry.Heads (r : Registry) (s : Source) (facts : ModuleFacts) : Prop :=
  ∃ submodules own, r.includedBy s = .ok submodules ∧ r.effectiveIdentity s = .ok own ∧
    facts.heading = s.moduleFacts own submodules

theorem Registry.Heads.identity {r : Registry} {s : Source} {facts : ModuleFacts}
    (h : r.Heads s facts) : r.effectiveIdentity s = .ok facts.identity := by
  obtain ⟨submodules, own, -, hown, hfacts⟩ := h
  have hidentity := congrArg ModuleFacts.identity hfacts
  rw [hown, show facts.identity = own from hidentity]

theorem Registry.Heads.congr {r : Registry} {s : Source} {facts facts' : ModuleFacts}
    (h : r.Heads s facts) (hheading : facts'.heading = facts.heading) : r.Heads s facts' := by
  obtain ⟨submodules, own, hsubmodules, hown, hfacts⟩ := h
  exact ⟨submodules, own, hsubmodules, hown, hheading.trans hfacts⟩

/-- A module is declared by declaring its sources in turn, each with its own bindings.  What is to be
shown follows from something that is so of the new module and that every source keeps. -/
theorem gives_declareModule_of {r : Registry} {config : BuildConfig} {rank : Nat} {s : Source}
    {w : Workspace} {Q : ModuleId → Workspace → Prop}
    (h : ∀ submodules own, r.includedBy s = .ok submodules → r.effectiveIdentity s = .ok own →
      w.draft.moduleOf? own = none → ∃ I : List Source → Workspace → Prop,
        I [] (w.openModule (s.moduleFacts own submodules)) ∧
        (∀ pre part post w', s :: submodules = pre ++ part :: post → I pre w' →
          ∀ prefixes, Prefixes.ofSource r part = .ok prefixes →
            Gives (Setting.declareSource ⟨{ prefixes with own }, ⟨w.draft.modules.size⟩, rank, config⟩
              part.root) w' fun _ w'' => I (pre ++ [part]) w'') ∧
        ∀ w', I (s :: submodules) w' → Q ⟨w.draft.modules.size⟩ w') :
    Gives (declareModule r config rank s) w Q := by
  unfold declareModule
  rw [gives_bind, gives_check]
  intro submodules hsubmodules
  rw [gives_bind, gives_check]
  intro own hown
  rw [gives_bind]
  refine gives_edit ?_
  unfold addModule
  rw [ends_bind, ends_get]
  split
  · rw [ends_bind, ends_throw]
    trivial
  next hnew =>
  rw [ends_modifyGet, gives_bind, gives_modify, gives_bind]
  obtain ⟨I, hnil, hnext, hdone⟩ := h submodules own hsubmodules hown
    (Option.not_isSome_iff_eq_none.1 hnew)
  refine (gives_forM (I := I) (s :: submodules) hnil ?_).mono ?_
  · intro pre part post w' hl hI
    rw [gives_bind, gives_check]
    exact hnext pre part post w' hl hI
  · intro _ w' hI
    exact (gives_pure _).2 (hdone w' hI)

/-- Before each of its sources the module is there as it was opened, with more in it. -/
theorem gives_declareModule_ready {r : Registry} {config : BuildConfig} {rank : Nat} {s : Source}
    {w : Workspace} {modules : List ModuleId} {Q : ModuleId → Workspace → Prop} (h : w.Declared modules)
    (hI : ∀ submodules own, r.includedBy s = .ok submodules → r.effectiveIdentity s = .ok own →
      ∃ I : List Source → Workspace → Prop, I [] (w.openModule (s.moduleFacts own submodules)) ∧
        (∀ pre part w', I pre w' → ∀ prefixes, Prefixes.ofSource r part = .ok prefixes →
          Setting.Ready ⟨{ prefixes with own }, ⟨w.draft.modules.size⟩, rank, config⟩ w' →
            Gives (Setting.declareSource ⟨{ prefixes with own }, ⟨w.draft.modules.size⟩, rank, config⟩
              part.root) w' fun _ w'' => w'.draft.Keeps w''.draft → I (pre ++ [part]) w'') ∧
        ∀ w', I (s :: submodules) w' → w'.Sane → w'.Listed →
          w'.draft.modules.size = w.draft.modules.size + 1 →
          (w.openModule (s.moduleFacts own submodules)).draft.Keeps w'.draft →
            Q ⟨w.draft.modules.size⟩ w') :
    Gives (declareModule r config rank s) w Q := by
  refine gives_declareModule_of fun submodules own hsubmodules hown hnew => ?_
  obtain ⟨I, hnil, hnext, hdone⟩ := hI submodules own hsubmodules hown
  refine ⟨fun pre w' => w'.Sane ∧ w'.Listed ∧ w'.draft.modules.size = w.draft.modules.size + 1 ∧
      (w.openModule (s.moduleFacts own submodules)).draft.Keeps w'.draft ∧ I pre w', ?_, ?_, ?_⟩
  · have h₁ := h.withModule (r := { facts := s.moduleFacts own submodules }) rfl rfl rfl rfl rfl hnew
    exact ⟨h₁.congr rfl rfl rfl, h.listed.withModule rfl rfl rfl, Shelf.size_push _ _, .refl _, hnil⟩
  · rintro pre part post w₁ - ⟨hsane, hlisted, hsize, hk, hI₁⟩ prefixes hprefixes
    have hready : Setting.Ready ⟨{ prefixes with own }, ⟨w.draft.modules.size⟩, rank, config⟩ w₁ := by
      refine ⟨hsane, hlisted, hsize, ?_⟩
      rw [hk.identity ⟨w.draft.modules.size⟩ (w.lt_openModule _)]
      exact w.identity_openModule _
    refine ((Setting.gives_declareSource hready).and
      (hnext pre part w₁ hI₁ prefixes hprefixes hready)).mono ?_
    rintro - w₂ ⟨⟨⟨h₂, hlisted₂, hsize₂, -⟩, hk₂, -⟩, hI₂⟩
    exact ⟨h₂, hlisted₂, hsize₂, hk.trans hk₂, hI₂ hk₂⟩
  · rintro w₁ ⟨hsane, hlisted, hsize, hk, hI₁⟩
    exact hdone w₁ hI₁ hsane hlisted hsize hk

/-- A module is declared, under the heading of its source. -/
theorem gives_declareModule (r : Registry) (config : BuildConfig) (rank : Nat) (s : Source)
    {w : Workspace} {modules : List ModuleId} (h : w.Declared modules) :
    Gives (declareModule r config rank s) w fun m w' => w'.Declared (modules ++ [m]) ∧
      w.draft.Keeps w'.draft ∧ r.Heads s (w'.draft.module m).facts ∧
      m ∉ modules ∧ w.Lists m rank w' := by
  refine gives_declareModule_ready h fun submodules own hsubmodules hown =>
    ⟨fun _ w' => w.Lists ⟨w.draft.modules.size⟩ rank w', .of_tops (tops_withModule rfl) rfl, ?_, ?_⟩
  · rintro pre part w₁ hl prefixes - hready
    exact (Setting.gives_declareSource hready).mono fun _ w₂ ⟨_, _, hl₂⟩ _ => hl.trans hl₂
  · rintro w₁ hl hsane hlisted hsize hk
    refine ⟨⟨hsane, hlisted, fun i => ?_⟩, (Keeps.withModule w.draft rfl rfl).trans hk, ?_,
      fun hm => Nat.lt_irrefl _ ((h.mem_modules _).1 hm), hl⟩
    · rw [hsize, Nat.lt_succ_iff_lt_or_eq, List.mem_append, h.mem_modules, List.mem_singleton]
      refine or_congr_right ⟨fun hi => (by rw [hi]), fun hi => ?_⟩
      cases i
      exact congrArg ModuleId.mk hi
    · refine ⟨submodules, own, hsubmodules, hown, ?_⟩
      rw [hk.heading ⟨w.draft.modules.size⟩ (w.lt_openModule _), w.facts_openModule]
      rfl

theorem Workspace.sane_empty : Workspace.Sane {} := by
  have hnone : ∀ s, ({} : Draft).childrenOf s = [] := by
    intro s
    exact childrenOf_of_not_hasSite (by cases s <;> exact Nat.not_lt_zero _)
  have huses : ∀ s, ({} : Draft).usesAt s = [] := by
    intro s
    exact usesAt_of_not_hasSite (by cases s <;> exact Nat.not_lt_zero _)
  have hparent : ∀ i, (({} : Draft).node i).parent = none := fun _ => rfl
  have hcontains : ∀ x y, ¬ ({} : Draft).Contains y x := by
    intro x y h
    cases x with
    | site s =>
      rcases contains_site.1 h with ⟨c, hc, -⟩ | ⟨u, hu, -⟩
      · rw [hnone] at hc
        cases hc
      · rw [huses] at hu
        cases hu
    | uses u =>
      obtain ⟨a, ha, -⟩ := contains_uses.1 h
      cases ha
  refine ⟨⟨⟨fun _ => rfl, fun _ => rfl, fun _ => rfl, fun _ => rfl, fun _ => rfl⟩, fun s c => ?_,
    fun s u hu => ?_, fun u a ha => (by cases ha), ⟨fun x => ⟨x, fun y hy => ?_⟩⟩⟩,
    fun t ht => (by cases ht), fun t ht => (by cases ht), fun i b hb => ?_, fun t c hc => ?_,
    fun i hi => (by cases hi), fun t ht c hc => ?_, fun i j hi => absurd hi (Nat.not_lt_zero _),
    .empty, .empty, .nil, .nil⟩
  · show c ∈ ({} : Draft).childrenOf s ↔ (({} : Draft).node c).parent = some s
    rw [hnone, hparent]
    simp
  · replace hu : u ∈ ({} : Draft).usesAt s := hu
    rw [huses] at hu
    cases hu
  · exact absurd hy (hcontains x y)
  · generalize ht : b.site = t at hb
    cases hb with
    | refl => exact absurd ht (b.site_ne_node i)
    | up hp _ => cases hp
  · replace hc : c ∈ ({} : Draft).childrenOf t := hc
    rw [hnone] at hc
    cases hc
  · replace hc : c ∈ ({} : Draft).childrenOf t := hc
    rw [hnone] at hc
    cases hc

theorem Workspace.declared_empty : Workspace.Declared [] {} where
  toSane := Workspace.sane_empty
  listed i a ha := by
    rw [module_of_size_le (Nat.zero_le _)] at ha
    cases ha
  mem_modules i := iff_of_false (by simp) (Nat.not_lt_zero _)

/-- The tasks of the augmentations, with their ranks, are those that the modules list, one module after
the other. -/
def Workspace.Ranked (modules : List ModuleId) (w : Workspace) : Prop :=
  w.tasks.augments.map (fun t => (t.rank, t.augment)) =
    modules.zipIdx.flatMap fun x => (w.draft.module x.1).augmentations.map (Prod.mk x.2)

theorem Workspace.Ranked.concat {w w' : Workspace} {modules : List ModuleId} {m : ModuleId}
    (h : w.Ranked modules) (hm : m ∉ modules) (hnone : (w.draft.module m).augmentations = [])
    (hl : w.Lists m modules.length w') : w'.Ranked (modules ++ [m]) := by
  obtain ⟨more, htasks, hrank, hmore⟩ := hl.listed
  unfold Ranked
  rw [htasks, List.map_append, h, List.zipIdx_append, List.flatMap_append]
  congr 1
  · -- the other modules list what they have listed
    refine List.flatMap_congr fun x hx => ?_
    have hne : x.1 ≠ m := fun hxm => hm (hxm ▸ List.fst_mem_of_mem_zipIdx hx)
    rw [hl.others x.1 hne]
  · simp only [Nat.zero_add, List.zipIdx_cons, List.zipIdx_nil, List.flatMap_cons, List.flatMap_nil,
      List.append_nil]
    rw [hmore, hnone, List.nil_append, List.map_map]
    exact List.map_congr_left fun t ht => congrArg (·, t.augment) (hrank t ht)

/-- After the declaration of all modules the workspace is sane, and the modules are all there are; they
have the headings of their sources, and their augmentations have their tasks. -/
theorem gives_declareModules_headed (r : Registry) (config : BuildConfig) (order : List Source) :
    Gives (declareModules r config order) {} fun modules w => w.Declared modules ∧ w.Ranked modules ∧
      List.Forall₂ (fun s m => r.Heads s (w.draft.module m).facts)
        (order.filter (!·.isSubmodule)) modules := by
  unfold declareModules
  refine (gives_mapM (I := fun pre modules w => w.Declared modules ∧ w.Ranked modules ∧
    List.Forall₂ (fun (x : Source × Nat) m => m.index < w.draft.modules.size ∧
      r.Heads x.1 (w.draft.module m).facts) pre modules) _
    ⟨Workspace.declared_empty, rfl, .nil⟩ ?_).mono ?_
  · rintro pre ⟨s, rank⟩ post modules w hsources ⟨h, hranked, hall⟩
    refine (gives_declareModule r config rank s h).mono ?_
    rintro m w' ⟨h', hk, hm, hnew, hl⟩
    have hlt : m.index < w'.draft.modules.size := (h'.mem_modules m).1 (by simp)
    have hrank : rank = modules.length := by
      have hget : (order.filter (!·.isSubmodule)).zipIdx[pre.length]? = some (s, rank) := by
        rw [hsources, List.getElem?_append_right (Nat.le_refl _), Nat.sub_self]
        rfl
      rw [List.getElem?_zipIdx, Option.map_eq_some_iff] at hget
      obtain ⟨s', -, hs'⟩ := hget
      rw [← hall.length_eq, ← (Prod.mk.inj hs').2, Nat.zero_add]
    subst hrank
    have hnone : (w.draft.module m).augmentations = [] := by
      rw [module_of_size_le (Nat.not_lt.1 fun hlt => hnew ((h.mem_modules m).2 hlt))]
      rfl
    refine ⟨h', hranked.concat hnew hnone hl, List.rel_append (hall.imp ?_) (.cons ⟨hlt, hm⟩ .nil)⟩
    rintro x i ⟨hi, hx⟩
    exact ⟨Nat.lt_of_lt_of_le hi hk.modules_le, hx.congr (hk.heading i hi)⟩
  · rintro modules w ⟨h, hranked, hall⟩
    refine ⟨h, hranked, ?_⟩
    rw [← List.zipIdx_map_fst 0 (order.filter (!·.isSubmodule)), List.forall₂_map_left_iff]
    exact hall.imp fun _ _ h => h.2

theorem gives_declareModules_ranked (r : Registry) (config : BuildConfig) (order : List Source) :
    Gives (declareModules r config order) {} fun modules w => w.Declared modules ∧ w.Ranked modules ∧
      List.Forall₂ (fun s m => r.effectiveIdentity s = .ok (w.draft.module m).facts.identity)
        (order.filter (!·.isSubmodule)) modules :=
  (gives_declareModules_headed r config order).mono fun _ _ ⟨h, hranked, hall⟩ =>
    ⟨h, hranked, hall.imp fun _ _ hm => hm.identity⟩

theorem gives_declareModules (r : Registry) (config : BuildConfig) (order : List Source) :
    Gives (declareModules r config order) {} fun modules w => w.Declared modules :=
  (gives_declareModules_headed r config order).mono fun _ _ h => h.1

end YangSchema
