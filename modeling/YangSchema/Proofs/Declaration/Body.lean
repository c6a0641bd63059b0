import YangSchema.Proofs.Declaration.Homes
import YangSchema.Proofs.Declaration.Rules
import YangSchema.Proofs.Declaration.Targets

/-!
# Declaring bodies

Declaring the body of a statement at a site enlarges the draft at that site, and leaves a task for
every uses in it (`Declares`).  Each of these tasks stands where it says: its place is there, the
innermost of the bodies around it is the one that its place is in, and all that it holds is named in
the module that its copies are bound to (`UsesTask.Stands`).
-/

namespace YangSchema

open Draft Edit Declare

/-! ## Standing in bodies -/

/-- The module that the definitions in a body are named in. -/
def Draft.homeOf (d : Draft) : Owner → ModuleIdentity
  | .grouping g => (d.grouping g).facts.name.owner
  | .augment a => (d.augment a).facts.home

theorem Draft.Keeps.homeOf {d d' : Draft} (h : d.Keeps d') {b : Owner} (hb : d.HasSite b.site) :
    d'.homeOf b = d.homeOf b := by
  cases b with
  | grouping g => exact congrArg QName.owner (h.grouping g hb)
  | augment a => exact h.home a hb

/-- A body holds names of its own module only. -/
theorem Draft.Homely.named {d : Draft} (h : d.Homely) (hd : d.Sound) {i : NodeId} {b : Owner}
    (hb : d.Under (.node i) b.site) : (d.node i).name.owner = d.homeOf b := by
  have hhome := h.under hd hb
  cases b <;> exact hhome

/-- A body may be declared at the site: it is there and no shorthand case, and `enclosing` ends with
the body that it is in. -/
structure Setting.Stands (k : Setting) (d : Draft) (s : Site) (enclosing : List Owner) : Prop where
  site : d.HasSite s
  plain : d.Plain s
  home : d.homeAt s = k.own
  owner : ∀ b : Owner, d.Under s b.site → enclosing.getLast? = some b ∧ d.homeOf b = k.own
  augment_lt : ∀ a, Owner.augment a ∈ enclosing → a.index < d.augments.size
  /-- An augmentation goes into its uses when its body is done. -/
  loose : ∀ a, Owner.augment a ∈ enclosing → ∀ u, a ∉ (d.usesOf u).augmentations

/-- The task has its place in the draft, says rightly what is around it, and names its targets in the
module that its copies are bound to. -/
structure UsesTask.Stands (t : UsesTask) (d : Draft) : Prop extends t.Fits d where
  listed : t.uses ∈ d.usesAt t.site
  plain : d.Plain t.site
  home : d.homeAt t.site = t.home
  owner : ∀ b : Owner, d.Under t.site b.site →
    t.enclosing.getLast? = some b ∧ d.homeOf b = t.home
  inner : ∀ a ∈ (d.usesOf t.uses).augmentations, .augment a ∉ t.enclosing ∧
    (d.augment a).facts.home = t.home
  /-- A uses comes before those in its augmentations. -/
  outer : ∀ a, .augment a ∈ t.enclosing → a.index < d.augments.size ∧
    ∀ u, a ∈ (d.usesOf u).augmentations → u.index < t.uses.index
  refines : ∀ r ∈ t.refines, ∀ q ∈ r.target.steps, q.owner = t.home
  targets : ∀ a ∈ (d.usesOf t.uses).augmentations, ∀ q ∈ (d.augment a).facts.target.steps,
    q.owner = t.home

/-- An augmentation that was there has not gone into a uses. -/
theorem Draft.Enlarges.mem_augmentations {m : ModuleIdentity} {s : Site} {d d' : Draft}
    (h : d.Enlarges m s d') {a : AugmentId} (ha : a.index < d.augments.size) {u : UsesId}
    (hmem : a ∈ (d'.usesOf u).augmentations) : a ∈ (d.usesOf u).augmentations := by
  rcases h.fresh (.uses u) (.site (.augment a)) (contains_uses.2 ⟨a, hmem, rfl⟩) with hc | hnew
  · obtain ⟨b, hb, heq⟩ := contains_uses.1 hc
    cases heq
    exact hb
  · exact absurd ha hnew

section Stands

variable {k : Setting} {d d' : Draft} {s x : Site} {m : ModuleIdentity} {enclosing : List Owner}

theorem Setting.Stands.enlarges (h : k.Stands d s enclosing) (hd : d.Sound)
    (he : d.Enlarges m x d') : k.Stands d' s enclosing where
  site := he.keeps.hasSite h.site
  plain := he.plain h.site h.plain
  home := (he.keeps.homeAt h.site).trans h.home
  owner b hb := by
    have hb' := (he.keeps.under_iff hd h.site).1 hb
    obtain ⟨h₁, h₂⟩ := h.owner b hb'
    exact ⟨h₁, (he.keeps.homeOf (hd.hasSite_above hb' h.site)).trans h₂⟩
  augment_lt a ha := Nat.lt_of_lt_of_le (h.augment_lt a ha) he.keeps.augments_le
  loose a ha u hu := h.loose a ha u (he.mem_augmentations (h.augment_lt a ha) hu)

theorem UsesTask.Stands.keeps {t : UsesTask} (h : t.Stands d) (hd : d.Sound) (hk : d.Keeps d')
    (haug : ∀ u, u.index < d.uses.size →
      (d'.usesOf u).augmentations = (d.usesOf u).augmentations)
    (hold : ∀ a u, a.index < d.augments.size → a ∈ (d'.usesOf u).augmentations →
      a ∈ (d.usesOf u).augmentations) : t.Stands d' where
  site := hk.hasSite h.site
  uses := Nat.lt_of_lt_of_le h.uses hk.uses_le
  relative a ha := by
    rw [haug t.uses h.uses] at ha
    rw [hk.target a (hd.augment_lt t.uses a ha)]
    exact h.relative a ha
  listed := (hk.usesAt t.site h.site).subset h.listed
  plain i hi := by
    rw [hk.kind i (hi ▸ h.site :)]
    exact h.plain i hi
  home := (hk.homeAt h.site).trans h.home
  owner b hb := by
    have hb' := (hk.under_iff hd h.site).1 hb
    obtain ⟨h₁, h₂⟩ := h.owner b hb'
    exact ⟨h₁, (hk.homeOf (hd.hasSite_above hb' h.site)).trans h₂⟩
  inner a ha := by
    rw [haug t.uses h.uses] at ha
    obtain ⟨h₁, h₂⟩ := h.inner a ha
    exact ⟨h₁, (hk.home a (hd.augment_lt t.uses a ha)).trans h₂⟩
  outer a ha := by
    obtain ⟨hlt, hafter⟩ := h.outer a ha
    exact ⟨Nat.lt_of_lt_of_le hlt hk.augments_le, fun u hu => hafter u (hold a u hlt hu)⟩
  refines := h.refines
  targets a ha := by
    rw [haug t.uses h.uses] at ha
    rw [hk.target a (hd.augment_lt t.uses a ha)]
    exact h.targets a ha

theorem UsesTask.Stands.enlarges {t : UsesTask} (h : t.Stands d) (hd : d.Sound)
    (he : d.Enlarges m x d') : t.Stands d' :=
  h.keeps hd he.keeps he.augmentations fun _ _ ha hmem => he.mem_augmentations ha hmem

/-- The task does not look at an augmentation that goes into a uses before it. -/
theorem UsesTask.Stands.pushAugment {t : UsesTask} (h : t.Stands d) {u : UsesId} {a : AugmentId}
    (hu : u.index < t.uses.index) :
    t.Stands (d.mapUses u fun r => { r with augmentations := r.augmentations ++ [a] }) := by
  have huses : (d.mapUses u fun r => { r with
      augmentations := r.augmentations ++ [a] }).usesOf t.uses = d.usesOf t.uses := by
    rw [usesOf_mapUses, if_neg fun h => Nat.ne_of_lt hu (congrArg UsesId.index h.1)]
  have hunder : ∀ {x y}, (d.mapUses u fun r => { r with
      augmentations := r.augmentations ++ [a] }).Under x y → d.Under x y := by
    intro x y hxy
    induction hxy with
    | refl => exact .refl _
    | up hp _ ih => exact .up hp ih
  refine {
    site := ?_, uses := ?_, relative := ?_, listed := ?_, plain := h.plain, home := ?_, owner := ?_
    inner := ?_, outer := ?_, refines := h.refines, targets := ?_ }
  · have := h.site
    revert this
    cases t.site <;> exact id
  · show _ < (Shelf.update _ _ _).size
    rw [Shelf.size_update]
    exact h.uses
  · rw [huses]
    exact h.relative
  · rw [usesAt_mapUses]
    exact h.listed
  · refine Eq.trans ?_ h.home
    cases t.site <;> rfl
  · intro b hb
    have := h.owner b (hunder hb)
    cases b <;> exact this
  · rw [huses]
    exact h.inner
  · intro b hb
    obtain ⟨hlt, hafter⟩ := h.outer b hb
    refine ⟨hlt, fun v hv => ?_⟩
    rw [usesOf_mapUses] at hv
    split at hv
    · next hvu =>
      rw [← hvu.1]
      exact hu
    · exact hafter v hv
  · rw [huses]
    exact h.targets

end Stands

/-! ## What a declaration at a site does -/

/-- Tasks of uses that were there, and tasks of later ones, are of different uses. -/
theorem nodup_map_append {l l' : List UsesTask} {n : Nat} (hl : (l.map UsesTask.uses).Nodup)
    (hl' : (l'.map UsesTask.uses).Nodup) (hlt : ∀ t ∈ l, t.uses.index < n)
    (hge : ∀ t ∈ l', n ≤ t.uses.index) : (l.map UsesTask.uses ++ l'.map UsesTask.uses).Nodup := by
  refine List.nodup_append.2 ⟨hl, hl', fun u hu v hv huv => ?_⟩
  obtain ⟨t, ht, rfl⟩ := List.mem_map.1 hu
  obtain ⟨t', ht', rfl⟩ := List.mem_map.1 hv
  have := hlt t ht
  have := hge t' ht'
  rw [huv] at *
  omega

/-- From the workspace `w` to `w'` something was declared at the site `s`. -/
structure Setting.Declares (k : Setting) (s : Site) (w w' : Workspace) : Prop where
  enlarges : w.draft.Enlarges k.own s w'.draft
  tasks : ∃ more, w'.tasks = { w.tasks with uses := w.tasks.uses ++ more } ∧
    ∀ t ∈ more, t.Stands w'.draft ∧ (t.site = s ∨ ¬ w.draft.HasSite t.site) ∧
      w.draft.uses.size ≤ t.uses.index
  /-- No two of these tasks are of one uses. -/
  distinct : ∀ more, w'.tasks.uses = w.tasks.uses ++ more → (more.map UsesTask.uses).Nodup

namespace Setting.Declares

variable {k : Setting} {s x : Site} {w w' w'' : Workspace}

/-- No task is left. -/
theorem of_enlarges (h : w.draft.Enlarges k.own s w'.draft) (ht : w'.tasks = w.tasks) :
    k.Declares s w w' :=
  ⟨h, ⟨[], by simp [ht], by simp⟩, fun more hmore => by
    rw [ht, List.self_eq_append_right] at hmore
    rw [hmore]
    exact List.nodup_nil⟩

theorem refl (hd : w.draft.Sound) : k.Declares s w w := of_enlarges (.refl hd) rfl

theorem trans_at (h : k.Declares s w w') (h' : k.Declares x w' w'')
    (hx : x = s ∨ ¬ w.draft.HasSite x) (hplain : w'.draft.Plain x) : k.Declares s w w'' := by
  obtain ⟨more, hmore, hstands⟩ := h.tasks
  obtain ⟨more', hmore', hstands'⟩ := h'.tasks
  refine ⟨h.enlarges.trans_at h'.enlarges hx hplain, ⟨more ++ more', ?_, fun t ht => ?_⟩,
    fun all hall => ?_⟩
  · rw [hmore', hmore, List.append_assoc]
  · rcases List.mem_append.1 ht with ht | ht
    · obtain ⟨h₁, h₂, h₃⟩ := hstands t ht
      exact ⟨h₁.enlarges h.enlarges.sound h'.enlarges, h₂, h₃⟩
    · obtain ⟨h₁, h₂, h₃⟩ := hstands' t ht
      refine ⟨h₁, ?_, Nat.le_trans h.enlarges.keeps.uses_le h₃⟩
      rcases h₂ with rfl | h₂
      · exact hx
      · exact .inr fun hs => h₂ (h.enlarges.keeps.hasSite hs)
  · replace hmore := congrArg Tasks.uses hmore
    replace hmore' := congrArg Tasks.uses hmore'
    have hdistinct := h.distinct more hmore
    have hdistinct' := h'.distinct more' hmore'
    rw [hmore', hmore, List.append_assoc, List.append_cancel_left_eq] at hall
    rw [← hall, List.map_append]
    exact nodup_map_append hdistinct hdistinct' (fun t ht => (hstands t ht).1.uses)
      fun t ht => (hstands' t ht).2.2

theorem trans (h : k.Declares s w w') (h' : k.Declares s w' w'') (hs : w.draft.HasSite s)
    (hplain : w.draft.Plain s) : k.Declares s w w'' :=
  h.trans_at h' (.inl rfl) (h.enlarges.plain hs hplain)

end Setting.Declares

/-! ## Single definitions -/

namespace Draft

variable {d : Draft} {s : Site}

/-- The site lists the grouping, and nothing else changed. -/
structure GroupingListed (s : Site) (g : GroupingId) (d d' : Draft) : Prop where
  alike : d.Alike d'
  listed : ∀ t, d'.groupingsAt t = d.groupingsAt t ++ if t = s then [g] else []
  facts : ∀ i, (d'.module i).facts = (d.module i).facts
  tops : ∀ i, (d'.module i).augmentations = (d.module i).augmentations
  pristine : d.Pristine → d'.Pristine

/-- A grouping is listed where it is defined. -/
theorem ends_pushGrouping (hd : d.Sound) (hs : d.HasSite s) {g : GroupingId}
    (hg : g.index < d.groupings.size) (hsg : ∀ h, s = .grouping h → h.index < g.index) :
    Ends (pushGrouping s g) d (fun _ d' => GroupingListed s g d d')
      fun f _ => ∃ p, f.cause = .malformed p := by
  have hmem : ∀ {l : List GroupingId} {g'}, g' ∈ l ++ [g] → g' ∈ l ∨ g'.index < d.groupings.size := by
    intro l g' h
    refine (List.mem_append.1 h).imp_right fun h => ?_
    rw [List.mem_singleton.1 h]
    exact hg
  cases s with
  | module i =>
    have hfacts : ∀ {α : Type} (p : ModuleDraft → α),
        (∀ r, p { r with groupings := r.groupings ++ [g] } = p r) → ∀ j,
          p ((d.mapModule i fun r => { r with groupings := r.groupings ++ [g] }).module j) =
            p (d.module j) := by
      intro α p hp j
      rw [module_mapModule]
      split
      · exact hp _
      · rfl
    refine (ends_editModule hd.unfrozen i _).2 {
      alike := alike_mapModule hd.unfrozen (by intro; rfl) (by intro; rfl) (by intro; rfl) i
      listed := fun t => groupingsAt_mapModule (by intro; rfl) fun h => h ▸ hs
      facts := hfacts ModuleDraft.facts fun _ => rfl
      tops := hfacts ModuleDraft.augmentations fun _ => rfl
      pristine := fun hp => hp.mapModule i fun _ => hmem }
  | node i =>
    have hharmless : Harmless fun r : NodeDraft => { r with groupings := r.groupings ++ [g] } :=
      ⟨fun _ => rfl, fun _ => rfl, fun _ => rfl, fun _ => rfl, fun _ => rfl, fun _ => rfl,
        fun _ => rfl, fun _ => rfl⟩
    refine (ends_editNode hd.unfrozen i _).2 {
      alike := hharmless.alike hd.unfrozen i
      listed := fun t => groupingsAt_mapNode (by intro; rfl) fun h => h ▸ hs
      facts := fun _ => rfl
      tops := fun _ => rfl
      pristine := fun hp => hp.mapNode (fun _ hr => ?_) i fun _ => hmem }
    exact ⟨hr.origin, hr.byUses, hr.augmenting, hr.augmentations⟩
  | grouping i =>
    refine (ends_editGrouping hd.unfrozen i _).2 {
      alike := alike_mapGrouping hd.unfrozen (by intro; rfl) (by intro; rfl) (by intro; rfl)
        (by intro; rfl) i
      listed := fun t => groupingsAt_mapGrouping (by intro; rfl) fun h => h ▸ hs
      facts := fun _ => rfl
      tops := fun _ => rfl
      pristine := fun hp => hp.mapGrouping i fun g' hg' => ?_ }
    refine (List.mem_append.1 hg').imp_right fun h => ?_
    rw [List.mem_singleton.1 h]
    exact ⟨hsg i rfl, hg⟩
  | augment i => exact (ends_throw _).2 ⟨_, rfl⟩

/-- A type definition changes nothing else. -/
theorem ends_pushTypedef (hd : d.Sound) (t : Typedef) :
    Ends (pushTypedef s t) d (fun _ d' => d.Restated [t.name] s d')
      fun f _ => ∃ p, f.cause = .malformed p := by
  cases s with
  | module i =>
    refine (ends_editModule hd.unfrozen i _).2 (.mapModule (f := fun r =>
      { r with typedefs := r.typedefs ++ [t] }) _ hd.unfrozen (fun _ => rfl) (fun r q hq => ?_) i)
    unfold ModuleFacts.definedNames at hq ⊢
    simp only [List.map_append, List.map_cons, List.map_nil, List.mem_append] at hq ⊢
    tauto
  | node i =>
    refine (ends_editNode hd.unfrozen i _).2 (.mapNode (f := fun r =>
      { r with typedefs := r.typedefs ++ [t] }) _ hd.unfrozen ?_ (fun _ => ⟨rfl, rfl⟩) i)
    exact ⟨fun _ => rfl, fun _ => rfl, fun _ => rfl, fun _ => rfl, fun _ => rfl, fun _ => rfl,
      fun _ => rfl, fun _ => rfl⟩
  | grouping i =>
    exact (ends_editGrouping hd.unfrozen i _).2 (.mapGrouping (f := fun r =>
      { r with typedefs := r.typedefs ++ [t] }) _ hd.unfrozen (fun _ => rfl) (fun _ => rfl) i)
  | augment i => exact (ends_throw _).2 ⟨_, rfl⟩

/-- Unknown statements change nothing else. -/
theorem ends_pushUnknown (hd : d.Sound) (us : List UnknownStatement) :
    Ends (pushUnknown s us) d (fun _ d' => d.Restated [] s d') fun _ _ => False := by
  cases s with
  | module i =>
    exact (ends_editModule hd.unfrozen i _).2 (.mapModule (f := fun r =>
      { r with unknown := r.unknown ++ us }) _ hd.unfrozen (fun _ => rfl) (fun _ _ => .inl) i)
  | node i =>
    refine (ends_editNode hd.unfrozen i _).2 (.mapNode (f := fun r =>
      { r with unknown := r.unknown ++ us }) _ hd.unfrozen ?_ (fun _ => ⟨rfl, rfl⟩) i)
    exact ⟨fun _ => rfl, fun _ => rfl, fun _ => rfl, fun _ => rfl, fun _ => rfl, fun _ => rfl,
      fun _ => rfl, fun _ => rfl⟩
  | grouping i =>
    exact (ends_editGrouping hd.unfrozen i _).2 (.mapGrouping (f := fun r =>
      { r with unknown := r.unknown ++ us }) _ hd.unfrozen (fun _ => rfl) (fun _ => rfl) i)
  | augment i =>
    exact (ends_editAugment hd.unfrozen i _).2 (.mapAugment (f := fun r =>
      { r with unknown := r.unknown ++ us }) _ hd.unfrozen (fun _ => rfl) (fun _ => rfl) (fun _ => rfl) i)

/-- The draft with a new uses at the site, of which the refines are known but no augmentations yet. -/
def openedUses (d : Draft) (s : Site) (r : UsesDraft) (refines : List SchemaPath) : Draft :=
  ((d.withUses r).pushedUses s ⟨d.uses.size⟩).mapUses ⟨d.uses.size⟩ fun r =>
    { r with facts := { r.facts with refines } }

/-- A new node is attached, unless the site accepts no children. -/
theorem ends_attach_withNode (hd : d.Sound) (hs : d.HasSite s) {r : NodeDraft} (hc : r.children = [])
    (hu : r.uses = []) (hp : r.parent = none) :
    Ends (attach s ⟨d.nodes.size⟩) (d.withNode r)
      (fun x d' => (d.withNode r).Attached s ⟨d.nodes.size⟩ x d')
      fun f _ => ∃ p, f.cause = .malformed p := by
  refine (ends_attach (hd.withNode hc hu hp) ((Extends.withNode d r).hasSite hs)
    (loose_withNode hc hu hp) (fun h => ?_) fun x hx => ?_).mono (fun x d' h => h.2) ?_
  · cases h
    exact Nat.lt_irrefl _ hs
  · rw [hx]
    exact lt_withNode r
  · rintro _ d' ⟨-, -, k, p, k', rfl⟩
    exact ⟨_, rfl⟩

end Draft

namespace Setting

variable {k : Setting} {s : Site} {w : Workspace} {stmt : Statement}

/-- What declaring a grouping comes to, its body apart. -/
structure GroupingAdded (k : Setting) (s : Site) (stmt : Statement) (w : Workspace)
    (r : QName × GroupingId) (w' : Workspace) : Prop where
  enlarges : w.draft.Enlarges k.own s w'.draft
  tasks : w'.tasks = w.tasks
  name : ∃ text, stmt.argument = some text ∧ r.1 = k.prefixes.ownName text
  id : r.2 = ⟨w.draft.groupings.size⟩
  lt : r.2.index < w'.draft.groupings.size
  childrenOf : ∀ t, w'.draft.childrenOf t = w.draft.childrenOf t
  listed : ∀ i, Site.module i = s →
    (w'.draft.module i).groupings = (w.draft.module i).groupings ++ [r.2]
  facts : (w'.draft.grouping r.2).facts.name = r.1

theorem gives_declareGrouping (hd : w.draft.Sound) (hs : w.draft.HasSite s)
    (hplain : w.draft.Plain s) :
    Gives (k.declareGrouping s stmt) w (k.GroupingAdded s stmt w) := by
  unfold declareGrouping
  rw [gives_bind, gives_check]
  intro text htext
  rw [gives_bind, gives_check]
  intro docs _
  rw [gives_bind, gives_get, gives_bind]
  refine gives_edit ((ends_addGrouping _).2 ?_)
  generalize hr : ({
      facts := {
        name := k.prefixes.ownName text
        path := (w.draft.pathOf s).child (k.prefixes.ownName text)
        docs } } : GroupingDraft) = r
  have hrc : r.children = [] := by rw [← hr]
  have hru : r.uses = [] := by rw [← hr]
  have hrn : r.facts.name = k.prefixes.ownName text := by rw [← hr]
  have hrg : r.groupings = [] := by rw [← hr]
  have h₁ : w.draft.Enlarges k.own s (w.draft.withGrouping r) :=
    enlarges_withGrouping hd hrc hru hrg (by rw [hrn]; rfl)
  have hlt : w.draft.groupings.size < (w.draft.withGrouping r).groupings.size :=
    Shelf.lt_size_push _ _
  rw [gives_bind]
  refine gives_edit ((ends_pushGrouping h₁.sound (h₁.keeps.hasSite hs) hlt ?_).mono ?_
    fun _ _ _ => trivial)
  · rintro h rfl
    exact hs
  rintro - d' h
  have halike := h.alike
  rw [gives_pure]
  have hname : (d'.grouping ⟨w.draft.groupings.size⟩).facts.name = k.prefixes.ownName text := by
    rw [halike.grouping, grouping_withGrouping, if_pos rfl, hrn]
  have h₂ : (w.draft.withGrouping r).Enlarges k.own s d' := by
    refine .of_alike h₁.sound halike (fun i hi => ?_) h.tops (fun t g hg => ?_)
      (fun i q hq => .inl (h.facts i ▸ hq)) h.pristine
    · exact (h.listed (.module i)).trans (by rw [if_neg hi, List.append_nil]; rfl)
    · rw [h.listed, List.mem_append] at hg
      refine hg.imp_right fun hg => ?_
      split at hg
      · next hts =>
        rw [List.mem_singleton.1 hg]
        exact ⟨hts, Nat.lt_of_lt_of_eq hlt halike.groupings_size.symm, congrArg QName.owner hname⟩
      · cases hg
  refine {
    enlarges := h₁.trans h₂ hs hplain
    tasks := rfl
    name := ⟨text, argument_of_requireArgument htext, rfl⟩
    id := rfl
    lt := by rw [halike.groupings_size]; exact hlt
    childrenOf := fun t => (halike.childrenOf t).trans (childrenOf_withGrouping hrc t)
    listed := fun i hi => (h.listed (.module i)).trans (by rw [if_pos hi]; rfl)
    facts := hname }

/-- What declaring a node comes to, its body apart; `x` is the node that now stands at the site. -/
structure NodeAdded (k : Setting) (s : Site) (stmt : Statement) (kind : Except Fault NodeKind)
    (w : Workspace) (i x : NodeId) (w' : Workspace) : Prop where
  enlarges : w.draft.Enlarges k.own s w'.draft
  tasks : w'.tasks = w.tasks
  new : w.draft.nodes.size ≤ i.index
  lt : i.index < w'.draft.nodes.size
  children : w'.draft.childrenOf s = w.draft.childrenOf s ++ [x]
  groupings : ∀ m, (w'.draft.module m).groupings = (w.draft.module m).groupings
  below : w'.draft.childrenOf (.node i) = []
  name : ∃ text, stmt.nodeName = .ok text ∧ (w'.draft.node i).name = k.prefixes.ownName text
  kind : kind = .ok (w'.draft.node i).kind
  name_eq : (w'.draft.node x).name = (w'.draft.node i).name
  place : x = i ∧ w'.draft.wraps s i = false ∨
    x ≠ i ∧ w'.draft.wraps s i = true ∧ w.draft.nodes.size ≤ x.index ∧
      (w'.draft.node x).kind = .caseNode true ∧ w'.draft.childrenOf (.node x) = [i]

/-- A new node was attached to the site. -/
theorem NodeAdded.of_attached {kind : NodeKind} {text : String} {r : NodeDraft} {x : NodeId} {d' : Draft}
    (hd : w.draft.Sound) (hs : w.draft.HasSite s) (hc : r.children = []) (hu : r.uses = [])
    (hg : r.groupings = []) (hr : r.Pristine) (htext : stmt.nodeName = .ok text)
    (hname : r.name = k.prefixes.ownName text) (hkind : r.kind = kind) (hne : kind ≠ .caseNode true)
    (h : (w.draft.withNode r).Attached s ⟨w.draft.nodes.size⟩ x d') :
    k.NodeAdded s stmt (.ok kind) w ⟨w.draft.nodes.size⟩ x { w with draft := d' } where
  enlarges := h.enlarges hd hs hu (by rw [hname]; rfl) (hkind ▸ hne) hr hg
  tasks := rfl
  new := Nat.le_refl _
  lt := Nat.lt_of_lt_of_le (lt_withNode r) h.nodes_le
  children := by rw [h.children_self, (Extends.withNode _ r).childrenOf hs]
  groupings := (h.changes_new hd hs).groupings
  below := h.children_new hs hc
  name := ⟨text, htext, h.name_new.trans hname⟩
  kind := by rw [h.kind_new, hkind]
  name_eq := by
    cases hw : (w.draft.withNode r).wraps s ⟨w.draft.nodes.size⟩ with
    | false => rw [(h.direct hw).1]
    | true => rw [h.name_wrapper hw, node_withNode_self, h.name_new]
  place := by
    rw [h.wraps_new hd hs]
    cases hw : (w.draft.withNode r).wraps s ⟨w.draft.nodes.size⟩ with
    | false => exact .inl ⟨(h.direct hw).1, rfl⟩
    | true =>
      obtain ⟨rfl, -, hx⟩ := h.wrapper hw
      refine .inr ⟨fun h => ?_, rfl, Nat.le_of_lt (lt_withNode r), by rw [hx]; rfl,
        h.children_wrapper hw⟩
      exact absurd (congrArg NodeId.index h) (Nat.ne_of_gt (lt_withNode r))

theorem gives_declareNode {kind : Except Fault NodeKind} (hd : w.draft.Sound)
    (hs : w.draft.HasSite s) (hkind : kind ≠ .ok (.caseNode true)) :
    Gives (k.declareNode s stmt kind) w fun i w' => ∃ x, k.NodeAdded s stmt kind w i x w' := by
  unfold declareNode
  rw [gives_bind, gives_check]
  intro text htext
  rw [gives_bind, gives_check]
  rintro kind' rfl
  rw [gives_bind, gives_check]
  intro docs _
  rw [gives_bind, gives_check]
  intro config _
  rw [gives_bind, gives_check]
  intro constraints _
  dsimp only
  rw [gives_bind]
  refine gives_edit ((ends_addNode _).2 ?_)
  rw [gives_bind, gives_discard]
  refine gives_edit ((ends_attach_withNode hd hs rfl rfl rfl).mono ?_ fun _ _ _ => trivial)
  rintro x d' hatt
  rw [gives_pure]
  refine ⟨x, .of_attached hd hs rfl rfl rfl ⟨rfl, rfl, rfl, rfl⟩ htext rfl rfl ?_ hatt⟩
  rintro rfl
  exact hkind rfl

theorem gives_declareTypedef (hd : w.draft.Sound) :
    Gives (k.declareTypedef s stmt) w fun _ w' => w.draft.Enlarges k.own s w'.draft ∧
      w'.tasks = w.tasks ∧ (∀ t, w'.draft.childrenOf t = w.draft.childrenOf t) ∧
      ∀ i, (w'.draft.module i).groupings = (w.draft.module i).groupings := by
  unfold declareTypedef
  rw [gives_bind, gives_check]
  intro text _
  dsimp only
  split
  · rw [gives_bind, gives_check]
    intro docs _
    refine gives_edit ((ends_pushTypedef hd _).mono ?_ fun _ _ _ => trivial)
    rintro - d' h
    refine ⟨h.enlarges hd fun q hq => ?_, rfl, h.childrenOf, fun i => h.groupingsAt (.module i)⟩
    rw [List.mem_singleton.1 hq]
    rfl
  · exact gives_throw _

/-! ## Uses -/

/-- A way to declare bodies that does what `Declares` says. -/
def DeclaresBodies (k : Setting) (body : BodyDeclarer) : Prop :=
  ∀ (s : Site) (stmt : Statement) (scope : Scope) (enclosing : List Owner) (w : Workspace),
    w.draft.Sound → k.Stands w.draft s enclosing →
      Gives (body s stmt scope enclosing) w fun _ w' => k.Declares s w w'

/-- The workspace while a uses is declared: its augmentations are on the way. -/
structure InUses (k : Setting) (s : Site) (enclosing : List Owner) (u : UsesId)
    (w w' : Workspace) : Prop where
  enlarges : w.draft.Enlarges k.own s w'.draft
  new : w.draft.uses.size ≤ u.index
  lt : u.index < w'.draft.uses.size
  listed : u ∈ w'.draft.usesAt s
  childrenOf : ∀ t, w.draft.HasSite t → w'.draft.childrenOf t = w.draft.childrenOf t
  groupings : ∀ i, (w'.draft.module i).groupings = (w.draft.module i).groupings
  augmentations : ∀ a ∈ (w'.draft.usesOf u).augmentations, Relative (w'.draft.augment a).facts.target ∧
    .augment a ∉ enclosing ∧ (w'.draft.augment a).facts.home = k.own ∧
    ∀ q ∈ (w'.draft.augment a).facts.target.steps, q.owner = k.own
  tasks : ∃ more, w'.tasks = { w.tasks with uses := w.tasks.uses ++ more } ∧
    ∀ t ∈ more, t.Stands w'.draft ∧ ¬ w.draft.HasSite t.site ∧ u.index < t.uses.index
  distinct : ∀ more, w'.tasks.uses = w.tasks.uses ++ more → (more.map UsesTask.uses).Nodup

theorem InUses.start {enclosing : List Owner} (hd : w.draft.Sound)
    (hstands : k.Stands w.draft s enclosing) {r : UsesDraft} (hr : r.augmentations = [])
    (refines : List SchemaPath) :
    k.InUses s enclosing ⟨w.draft.uses.size⟩ w { w with draft := w.draft.openedUses s r refines } ∧
      ((w.draft.openedUses s r refines).usesOf ⟨w.draft.uses.size⟩).augmentations = [] := by
  have he₁ : w.draft.Enlarges k.own s ((w.draft.withUses r).pushedUses s ⟨w.draft.uses.size⟩) :=
    enlarges_pushedUses hd hstands.site hr
  have halike := alike_mapUses (f := fun r => { r with facts := { r.facts with refines } })
    (fun _ => rfl) he₁.sound.unfrozen ⟨w.draft.uses.size⟩
  have he₂ := he₁.trans (.of_alike he₁.sound halike (fun _ _ => rfl) (fun _ => rfl)
    (fun t _ hg => .inl (by cases t <;> exact hg)) (fun _ _ => .inl) fun hp => hp.mapUses _ _)
    hstands.site hstands.plain
  obtain ⟨-, -, hz, -, -⟩ := (w.draft.withUses r).sizes_pushedUses s ⟨w.draft.uses.size⟩
  have haug₂ : ((w.draft.openedUses s r refines).usesOf ⟨w.draft.uses.size⟩).augmentations = [] := by
    refine (halike.augmentations _).trans ?_
    rw [usesOf, hz]
    show ((w.draft.withUses r).usesOf ⟨w.draft.uses.size⟩).augmentations = []
    rw [usesOf_withUses_self, hr]
  refine ⟨⟨he₂, Nat.le_refl _, ?_, ?_, fun t _ => ?_, fun i => ?_, fun a ha => ?_, ⟨[], ?_, ?_⟩,
    fun more hmore => ?_⟩, haug₂⟩
  · refine Nat.lt_of_lt_of_eq ?_ halike.uses_size.symm
    rw [hz]
    exact Shelf.lt_size_push _ _
  · refine (halike.usesAt s).symm ▸ ?_
    rw [usesAt_pushedUses_self ((Extends.withUses _ r).hasSite hstands.site)]
    exact List.mem_append_right _ List.mem_cons_self
  · refine (halike.childrenOf t).trans ?_
    rw [childrenOf_pushedUses]
    cases t <;> rfl
  · show (((w.draft.withUses r).pushedUses s _).module i).groupings = _
    rw [module_pushedUses]
    rfl
  · replace ha : a ∈ ((w.draft.openedUses s r refines).usesOf _).augmentations := ha
    rw [haug₂] at ha
    cases ha
  · simp
  · simp
  · rw [List.self_eq_append_right] at hmore
    rw [hmore]
    exact List.nodup_nil

/-- What declaring an augmentation makes of a draft, its body apart. -/
structure AugmentAdded (k : Setting) (s : Site) (target : SchemaPath) (order : Nat) (d : Draft)
    (a : AugmentId) (d' : Draft) : Prop where
  id : a = ⟨d.augments.size⟩
  enlarges : d.Enlarges k.own s d'
  lt : a.index < d'.augments.size
  target : (d'.augment a).facts.target = target
  order : (d'.augment a).facts.order = order
  childrenOf : ∀ t, d'.childrenOf t = d.childrenOf t
  groupings : ∀ i, (d'.module i).groupings = (d.module i).groupings
  usesOf : ∀ u, d'.usesOf u = d.usesOf u

namespace AugmentAdded

variable {target : SchemaPath} {order : Nat} {d d' : Draft} {a : AugmentId}
  (h : k.AugmentAdded s target order d a d')
include h

theorem new : d.augments.size ≤ a.index := by rw [h.id]

theorem not_hasSite : ¬ d.HasSite (.augment a) := Nat.not_lt.2 h.new

theorem home : (d'.augment a).facts.home = k.own := h.enlarges.homes a h.new h.lt

/-- No uses lists it as yet. -/
theorem loose (hd : d.Sound) (u : UsesId) : a ∉ (d'.usesOf u).augmentations := by
  rw [h.usesOf]
  exact fun hu => Nat.not_lt.2 h.new (hd.augment_lt u a hu)

end AugmentAdded

theorem gives_declareAugment {target : SchemaPath} {order : Nat} (hd : w.draft.Sound) :
    Gives (k.declareAugment stmt target order) w fun a w' =>
      k.AugmentAdded s target order w.draft a w'.draft ∧ w'.tasks = w.tasks := by
  unfold declareAugment
  rw [gives_bind, gives_check]
  intro docs _
  refine gives_edit ((ends_addAugment _).2 ⟨?_, rfl⟩)
  exact {
    id := rfl
    enlarges := enlarges_withAugment hd rfl rfl rfl rfl
    lt := Shelf.lt_size_push _ _
    target := by rw [augment_withAugment_self]
    order := by rw [augment_withAugment_self]
    childrenOf := childrenOf_withAugment rfl
    groupings := fun _ => rfl
    usesOf := fun _ => rfl }

/-- The body of a new augmentation may be declared. -/
theorem stands_augment {d : Draft} {a : AugmentId} {enclosing : List Owner}
    (hlt : a.index < d.augments.size) (hhome : (d.augment a).facts.home = k.own)
    (hloose : ∀ u, a ∉ (d.usesOf u).augmentations)
    (houter : ∀ b, Owner.augment b ∈ enclosing →
      b.index < d.augments.size ∧ ∀ u, b ∉ (d.usesOf u).augmentations) :
    k.Stands d (.augment a) (enclosing ++ [.augment a]) := by
  refine ⟨hlt, fun i hi => (by cases hi), hhome, fun b hb => ?_, fun b hb => ?_, fun b hb u => ?_⟩
  · have hb' : b = .augment a := by
      have := hb.eq_of_root fun i hi => (by cases hi)
      cases b with
      | grouping g => cases this
      | augment a' => cases this; rfl
    subst hb'
    exact ⟨by simp, hhome⟩
  · rcases List.mem_append.1 hb with hb | hb
    · exact (houter b hb).1
    · cases List.mem_singleton.1 hb
      exact hlt
  · rcases List.mem_append.1 hb with hb | hb
    · exact (houter b hb).2 u
    · cases List.mem_singleton.1 hb
      exact hloose u

/-! ### One augmentation of a uses

The augmentation `a` is added, which leads from `w₁` to `w₂`; its body is declared, which leads to `w₃`;
and then it goes into the uses. -/

namespace InUses

variable {enclosing : List Owner} {u : UsesId} {target : SchemaPath} {order : Nat} {a : AugmentId}
  {w₁ w₂ w₃ : Workspace} (hstands : k.Stands w.draft s enclosing) (hd : w.draft.Sound)
  (h : k.InUses s enclosing u w w₁) (ha : k.AugmentAdded s target order w₁.draft a w₂.draft)
include hstands hd h ha

theorem stands_augment : k.Stands w₂.draft (.augment a) (enclosing ++ [.augment a]) := by
  have hstands₁ := hstands.enlarges hd h.enlarges
  refine Setting.stands_augment ha.lt ha.home (ha.loose h.enlarges.sound) fun b hb => ⟨?_, fun v => ?_⟩
  · exact Nat.lt_of_lt_of_le (hstands₁.augment_lt b hb) ha.enlarges.keeps.augments_le
  · rw [ha.usesOf]
    exact hstands₁.loose b hb v

variable (hb : k.Declares (.augment a) w₂ w₃)
include hb

omit hstands hd h in
theorem enlarges_body : w₁.draft.Enlarges k.own s w₃.draft :=
  ha.enlarges.trans_at hb.enlarges (.inr ha.not_hasSite) fun i hi => (by cases hi)

omit hstands hd in
theorem augmentations_body : (w₃.draft.usesOf u).augmentations = (w₁.draft.usesOf u).augmentations := by
  rw [hb.enlarges.augmentations u (Nat.lt_of_lt_of_le h.lt ha.enlarges.keeps.uses_le), ha.usesOf]

/-- What is said of the augmentations holds of the new one too. -/
theorem augmentation_new (htarget : Relative target) (hsteps : ∀ q ∈ target.steps, q.owner = k.own) :
    Relative (w₃.draft.augment a).facts.target ∧ .augment a ∉ enclosing ∧
      (w₃.draft.augment a).facts.home = k.own ∧
      ∀ q ∈ (w₃.draft.augment a).facts.target.steps, q.owner = k.own := by
  have hk := hb.enlarges.keeps
  rw [hk.target a ha.lt, ha.target, hk.home a ha.lt, ha.home]
  refine ⟨htarget, fun hmem => ?_, rfl, hsteps⟩
  exact Nat.not_lt.2 ha.new ((hstands.enlarges hd h.enlarges).augment_lt a hmem)

omit hstands hd in
theorem augmentation_old {b : AugmentId} (hmem : b ∈ (w₃.draft.usesOf u).augmentations) :
    Relative (w₃.draft.augment b).facts.target ∧ .augment b ∉ enclosing ∧
      (w₃.draft.augment b).facts.home = k.own ∧
      ∀ q ∈ (w₃.draft.augment b).facts.target.steps, q.owner = k.own := by
  rw [h.augmentations_body ha hb] at hmem
  have hlt := h.enlarges.sound.augment_lt u b hmem
  have hk := (enlarges_body ha hb).keeps
  rw [hk.target b hlt, hk.home b hlt]
  exact h.augmentations b hmem

variable (htasks : w₂.tasks = w₁.tasks)
include htasks

omit hstands hd in
/-- The tasks of the body come after those that there were. -/
theorem tasks_body : ∃ more, w₃.tasks = { w.tasks with uses := w.tasks.uses ++ more } ∧
    ∀ t ∈ more, t.Stands w₃.draft ∧ ¬ w.draft.HasSite t.site ∧ u.index < t.uses.index := by
  obtain ⟨more, hmore, hold⟩ := h.tasks
  obtain ⟨more', hmore', hnew⟩ := hb.tasks
  refine ⟨more ++ more', ?_, fun t ht => ?_⟩
  · rw [hmore', htasks, hmore, List.append_assoc]
  rcases List.mem_append.1 ht with ht | ht
  · obtain ⟨h₁, h₂, h₃⟩ := hold t ht
    exact ⟨h₁.enlarges h.enlarges.sound (enlarges_body ha hb), h₂, h₃⟩
  · obtain ⟨h₁, h₂, h₃⟩ := hnew t ht
    refine ⟨h₁, fun hs => ?_, ?_⟩
    · rcases h₂ with h₂ | h₂
      · rw [h₂] at hs
        exact ha.not_hasSite (h.enlarges.keeps.hasSite hs)
      · exact h₂ (ha.enlarges.keeps.hasSite (h.enlarges.keeps.hasSite hs))
    · exact Nat.lt_of_lt_of_le (Nat.lt_of_lt_of_le h.lt ha.enlarges.keeps.uses_le) h₃

omit hstands hd in
theorem distinct_body {all : List UsesTask} (hall : w₃.tasks.uses = w.tasks.uses ++ all) :
    (all.map UsesTask.uses).Nodup := by
  obtain ⟨more, hmore, hold⟩ := h.tasks
  obtain ⟨more', hmore', hnew⟩ := hb.tasks
  replace hmore := congrArg Tasks.uses hmore
  replace hmore' := congrArg Tasks.uses hmore'
  have hdistinct := h.distinct more hmore
  have hdistinct' := hb.distinct more' hmore'
  rw [htasks] at hmore'
  replace hmore' : w₃.tasks.uses = w₁.tasks.uses ++ more' := hmore'
  rw [hmore', hmore, List.append_assoc, List.append_cancel_left_eq] at hall
  rw [← hall, List.map_append]
  exact nodup_map_append hdistinct hdistinct' (fun t ht => (hold t ht).1.uses)
    fun t ht => Nat.le_trans ha.enlarges.keeps.uses_le (hnew t ht).2.2

/-- The augmentation goes into the uses. -/
theorem pushed (htarget : Relative target) (hsteps : ∀ q ∈ target.steps, q.owner = k.own) :
    k.InUses s enclosing u w { w₃ with draft := w₃.draft.mapUses u fun r =>
      { r with augmentations := r.augmentations ++ [a] } } := by
  have hstands₁ := hstands.enlarges hd h.enlarges
  have he₁₃ := enlarges_body ha hb
  have hlt₃ : u.index < w₃.draft.uses.size := Nat.lt_of_lt_of_le h.lt he₁₃.keeps.uses_le
  have halt₃ : a.index < w₃.draft.augments.size :=
    Nat.lt_of_lt_of_le ha.lt hb.enlarges.keeps.augments_le
  have hsound := Draft.Sound.pushAugment he₁₃ h.lt ha.new halt₃
  have hnew := h.augmentation_new hstands hd ha hb htarget hsteps
  refine {
    enlarges := (h.enlarges.trans_at he₁₃ (.inl rfl) hstands₁.plain).pushAugment h.new
      (Nat.le_trans h.enlarges.keeps.augments_le ha.new) hsound
    new := h.new
    lt := by
      show _ < (Shelf.update _ _ _).size
      rw [Shelf.size_update]
      exact hlt₃
    listed := by
      show u ∈ (w₃.draft.mapUses u _).usesAt s
      rw [usesAt_mapUses]
      exact (he₁₃.keeps.usesAt s hstands₁.site).subset h.listed
    childrenOf := fun t ht => ?_
    groupings := fun i => ?_
    augmentations := fun b hmem => ?_
    tasks := ?_
    distinct := fun _ => h.distinct_body ha hb htasks }
  · show (w₃.draft.mapUses u _).childrenOf t = _
    have ht₁ := h.enlarges.keeps.hasSite ht
    rw [childrenOf_mapUses, hb.enlarges.childrenOf t (ha.enlarges.keeps.hasSite ht₁), ha.childrenOf,
      h.childrenOf t ht]
    rintro rfl
    exact ha.not_hasSite ht₁
  · show (w₃.draft.module i).groupings = _
    rw [hb.enlarges.groupings i (by simp), ha.groupings, h.groupings]
  · replace hmem : b ∈ ((w₃.draft.mapUses u fun r =>
      { r with augmentations := r.augmentations ++ [a] }).usesOf u).augmentations := hmem
    rw [usesOf_mapUses, if_pos ⟨rfl, hlt₃⟩] at hmem
    rcases List.mem_append.1 hmem with hmem | hmem
    · exact h.augmentation_old ha hb hmem
    · obtain rfl := List.mem_singleton.1 hmem
      exact hnew
  · obtain ⟨more, hmore, hall⟩ := h.tasks_body ha hb htasks
    refine ⟨more, hmore, fun t ht => ?_⟩
    obtain ⟨h₁, h₂, h₃⟩ := hall t ht
    exact ⟨h₁.pushAugment h₃, h₂, h₃⟩

end InUses

/-! ### The task of a uses -/

namespace InUses

variable {enclosing : List Owner} {u : UsesId} {t : UsesTask} {w' : Workspace}
  (h : k.InUses s enclosing u w w') (hu : t.uses = u) (hsite : t.site = s)
include h hu hsite

/-- The task of the uses stands when all its augmentations are declared. -/
theorem task_stands (hstands : k.Stands w.draft s enclosing) (hd : w.draft.Sound)
    (henclosing : t.enclosing = enclosing) (hhome : t.home = k.own)
    (hrefines : ∀ r ∈ t.refines, ∀ q ∈ r.target.steps, q.owner = k.own) : t.Stands w'.draft := by
  have hstands' := hstands.enlarges hd h.enlarges
  subst hu hsite henclosing
  exact {
    site := hstands'.site
    uses := h.lt
    relative := fun a ha => (h.augmentations a ha).1
    listed := h.listed
    plain := hstands'.plain
    home := hstands'.home.trans hhome.symm
    owner := hhome ▸ hstands'.owner
    inner := fun a ha => ⟨(h.augmentations a ha).2.1, (h.augmentations a ha).2.2.1.trans hhome.symm⟩
    outer := fun a ha => ⟨hstands'.augment_lt a ha, fun u hu => absurd hu (hstands'.loose a ha u)⟩
    refines := hhome ▸ hrefines
    targets := fun a ha => hhome ▸ (h.augmentations a ha).2.2.2 }

/-- It comes after the tasks in the augmentations, which are of later uses. -/
theorem declares (ht : t.Stands w'.draft) :
    k.Declares s w { w' with tasks := { w'.tasks with uses := w'.tasks.uses ++ [t] } } := by
  obtain ⟨more, hmore, hall⟩ := h.tasks
  refine ⟨h.enlarges, ⟨more ++ [t], ?_, fun t' ht' => ?_⟩, fun all hall' => ?_⟩
  · rw [hmore, List.append_assoc]
  · rcases List.mem_append.1 ht' with ht' | ht'
    · obtain ⟨h₁, h₂, h₃⟩ := hall t' ht'
      exact ⟨h₁, .inr h₂, Nat.le_of_lt (Nat.lt_of_le_of_lt h.new h₃)⟩
    · obtain rfl := List.mem_singleton.1 ht'
      exact ⟨ht, .inl hsite, hu ▸ h.new⟩
  · replace hmore := congrArg Tasks.uses hmore
    have hdistinct := h.distinct more hmore
    replace hall' : w'.tasks.uses ++ [t] = w.tasks.uses ++ all := hall'
    rw [hmore, List.append_assoc, List.append_cancel_left_eq] at hall'
    rw [← hall', List.map_append, List.nodup_append]
    refine ⟨hdistinct, List.nodup_singleton _, fun v hv x hx hvx => ?_⟩
    obtain ⟨t', ht', rfl⟩ := List.mem_map.1 hv
    have hlater := (hall t' ht').2.2
    rw [hvx, List.mem_singleton.1 hx, hu] at hlater
    exact Nat.lt_irrefl _ hlater

end InUses

/-- One augmentation of a uses is declared. -/
theorem InUses.gives_augment {body : BodyDeclarer} (hbody : k.DeclaresBodies body)
    {enclosing : List Owner} (hstands : k.Stands w.draft s enclosing) (hd : w.draft.Sound)
    {u : UsesId} {w₁ : Workspace} (h : k.InUses s enclosing u w w₁) (c : Statement) (scope : Scope) :
    Gives (do
      let target ← Declare.check (k.descendantPath c)
      let a ← k.declareAugment c target (← Declare.nextOrder)
      body (.augment a) c scope (enclosing ++ [.augment a])
      Declare.edit (Draft.editUses u fun r => { r with augmentations := r.augmentations ++ [a] }))
      w₁ fun _ w' => k.InUses s enclosing u w w' := by
  rw [gives_bind, gives_check]
  intro target htarget
  rw [gives_bind, gives_nextOrder, gives_bind]
  refine (gives_declareAugment (s := s)
    (w := { w₁ with nextOrder := w₁.nextOrder + 1 }) h.enlarges.sound).mono ?_
  rintro a w₂ ⟨ha, htasks⟩
  rw [gives_bind]
  refine (hbody _ c scope _ w₂ ha.enlarges.sound (h.stands_augment hstands hd ha)).mono ?_
  rintro - w₃ hw₃
  refine gives_edit ((ends_editUses hw₃.enlarges.sound.unfrozen u _).2 ?_)
  exact h.pushed hstands hd ha hw₃ htasks (relative_of_descendantPath htarget)
    (owner_of_descendantPath htarget)

/-- What declaring a uses comes to. -/
structure UsesAdded (k : Setting) (s : Site) (stmt : Statement) (scope : Scope) (w w' : Workspace) :
    Prop where
  declares : k.Declares s w w'
  childrenOf : ∀ t, w.draft.HasSite t → w'.draft.childrenOf t = w.draft.childrenOf t
  groupings : ∀ i, (w'.draft.module i).groupings = (w.draft.module i).groupings
  tasks : ∃ inner t, w'.tasks.uses = w.tasks.uses ++ inner ++ [t] ∧
    (∀ t' ∈ inner, ¬ w.draft.HasSite t'.site) ∧ t.site = s ∧ t.scope = scope ∧ t.home = k.own ∧
      (∃ text, stmt.argument = some text ∧ k.prefixes.qname text = .ok t.grouping) ∧
      (stmt.all (.word .augment) = [] →
        inner = [] ∧ (w'.draft.usesOf t.uses).augmentations = [])

theorem gives_declareUses {body : BodyDeclarer} (hbody : k.DeclaresBodies body)
    {enclosing : List Owner} (hd : w.draft.Sound) (hstands : k.Stands w.draft s enclosing)
    (scope : Scope) :
    Gives (k.declareUses body s stmt scope enclosing) w fun _ w' =>
      k.UsesAdded s stmt scope w w' := by
  unfold declareUses
  rw [gives_bind, gives_check]
  intro q hq
  obtain ⟨text, htext, hq⟩ := exists_of_bind_eq_ok hq
  rw [gives_bind]
  refine gives_edit ((ends_addUses _).2 ?_)
  rw [gives_bind]
  generalize hr : ({ facts := { grouping := SchemaPath.root.child q } } : UsesDraft) = r
  have hraug : r.augmentations = [] := by rw [← hr]
  have hunfrozen : (w.draft.withUses r).Unfrozen := hd.unfrozen.withUses r
  refine gives_edit ((ends_pushUses hunfrozen s _).2 ?_)
  have he₁ : w.draft.Enlarges k.own s ((w.draft.withUses r).pushedUses s ⟨w.draft.uses.size⟩) :=
    enlarges_pushedUses hd hstands.site hraug
  -- the refines are read
  rw [gives_bind]
  refine (gives_readAll _).mono ?_
  rintro refines w' ⟨rfl, hread⟩
  have hrefines : ∀ t ∈ refines, ∀ q ∈ t.target.steps, q.owner = k.own := by
    intro t ht
    obtain ⟨c, -, hc⟩ := hread t ht
    exact owner_of_readRefine hc
  rw [gives_bind]
  refine gives_edit ((ends_editUses he₁.sound.unfrozen _ _).2 ?_)
  have hopened : (((w.draft.withUses r).pushedUses s ⟨w.draft.uses.size⟩).mapUses ⟨w.draft.uses.size⟩
      fun r => { r with facts := { r.facts with refines := refines.map RefineTask.target } }) =
      w.draft.openedUses s r (refines.map RefineTask.target) := rfl
  rw [hopened]
  obtain ⟨hstart, haug₂⟩ := InUses.start hd hstands hraug (refines.map RefineTask.target)
  generalize w.draft.openedUses s r (refines.map RefineTask.target) = d₂ at hstart haug₂
  -- the augmentations
  rw [gives_bind]
  have hloop := gives_forM (w := { w with draft := d₂ })
    (I := fun pre w' => k.InUses s enclosing ⟨w.draft.uses.size⟩ w w' ∧
      (pre = [] → w' = { w with draft := d₂ }))
    (f := fun c => located (k.trace c) do
      let target ← Declare.check (k.descendantPath c)
      let a ← k.declareAugment c target (← Declare.nextOrder)
      body (.augment a) c scope (enclosing ++ [.augment a])
      Declare.edit (Draft.editUses ⟨w.draft.uses.size⟩ fun r =>
        { r with augmentations := r.augmentations ++ [a] }))
    (stmt.all (.word .augment)) ⟨hstart, fun _ => rfl⟩ fun pre c post w' _ h => by
      rw [gives_located]
      refine (h.1.gives_augment hbody hstands hd c scope).mono fun _ _ h => ⟨h, fun hnil => ?_⟩
      simp at hnil
  refine hloop.mono ?_
  rintro - w₃ ⟨h₃, hbare⟩
  refine (gives_addUsesTask _).2 ?_
  obtain ⟨more, hmore, hall⟩ := h₃.tasks
  refine {
    declares := h₃.declares rfl rfl (h₃.task_stands rfl rfl hstands hd rfl rfl hrefines)
    childrenOf := h₃.childrenOf
    groupings := h₃.groupings
    tasks := ⟨more, _, by rw [hmore], fun t ht => (hall t ht).2.1, rfl, rfl, rfl,
      ⟨text, argument_of_requireArgument htext, hq⟩, fun hnone => ?_⟩ }
  obtain rfl := hbare hnone
  exact ⟨by simpa using congrArg Tasks.uses hmore, haug₂⟩

/-! ## Bodies -/

theorem nodeKind?_ne_shorthand {b : Prefixes} {kind : Except Fault NodeKind}
    (h : stmt.nodeKind? b = some kind) : kind ≠ .ok (.caseNode true) := by
  rintro rfl
  unfold Statement.nodeKind? at h
  split at h
  · split at h
    all_goals
      first
        | cases h
        | (cases hk : stmt.keys b with
            | error f =>
              rw [hk] at h
              cases h
            | ok l =>
              rw [hk] at h
              cases h)
  · cases h

/-- The body of a new node may be declared. -/
theorem Stands.node {enclosing : List Owner} (h : k.Stands w.draft s enclosing)
    (hd : w.draft.Sound) {kind : Except Fault NodeKind} (hkind : kind ≠ .ok (.caseNode true))
    {i x : NodeId} {w' : Workspace} (ha : k.NodeAdded s stmt kind w i x w') :
    k.Stands w'.draft (.node i) enclosing := by
  have h' := h.enlarges hd ha.enlarges
  have hx : x ∈ w'.draft.childrenOf s := by
    rw [ha.children]
    simp
  have hsound := ha.enlarges.sound
  have hunder : w'.draft.Under (.node i) s := by
    rcases ha.place with ⟨rfl, -⟩ | ⟨-, -, -, -, hi⟩
    · exact .up (hsound.parent_eq hx) (.refl _)
    · exact .up (hsound.parent_eq (s := .node x) (by rw [hi]; simp))
        (.up (hsound.parent_eq hx) (.refl _))
  refine ⟨ha.lt, fun j hj => ?_, ?_, fun b hb => h'.owner b ?_, h'.augment_lt, h'.loose⟩
  · cases hj
    intro hk
    exact hkind (by rw [ha.kind, hk])
  · exact ha.enlarges.names i ha.new ha.lt
  · rcases hunder.total hb with hb | hb
    · exact hb
    · rw [hb.eq_of_root b.site_ne_node]
      exact .refl _

theorem gives_declareStatement {body : BodyDeclarer} (hbody : k.DeclaresBodies body)
    {enclosing : List Owner} (hd : w.draft.Sound) (hstands : k.Stands w.draft s enclosing)
    (scope : Scope) :
    Gives (k.declareStatement body s stmt scope enclosing) w fun _ w' => k.Declares s w w' := by
  refine gives_declareStatement_of (fun kind hkind => ?_) (fun _ x _ _ _ => ?_) (fun _ _ _ => ?_)
    (fun _ _ _ => ?_) fun _ _ _ _ _ => .refl hd
  · have hne := nodeKind?_ne_shorthand hkind
    refine (gives_declareNode hd hstands.site hne).mono ?_
    rintro i w₁ ⟨x, ha⟩
    refine (hbody _ stmt scope enclosing w₁ ha.enlarges.sound (hstands.node hd hne ha)).mono ?_
    rintro - w₂ h
    refine (Declares.of_enlarges ha.enlarges ha.tasks).trans_at h (.inr ?_) ?_
    · exact Nat.not_lt.2 ha.new
    · exact (hstands.node hd hne ha).plain
  · refine gives_edit ((ends_pushUnknown hd _).mono ?_ fun _ _ _ => trivial)
    exact fun _ d' h => .of_enlarges (h.enlarges hd fun q hq => by cases hq) rfl
  · exact (gives_declareUses hbody hd hstands scope).mono fun _ _ h => h.declares
  · exact (gives_declareTypedef hd).mono fun _ w' h => .of_enlarges h.1 h.2.1

/-- The groupings of a body, with their bodies still empty. -/
structure GroupingsAdded (k : Setting) (s : Site) (w : Workspace)
    (rs : List ((QName × GroupingId) × Statement)) (w' : Workspace) : Prop where
  declares : k.Declares s w w'
  new : ∀ r ∈ rs, w.draft.groupings.size ≤ r.1.2.index ∧ r.1.2.index < w'.draft.groupings.size

/-- One grouping more is declared, its body apart. -/
theorem GroupingsAdded.gives_next {rs : List ((QName × GroupingId) × Statement)} {w₁ : Workspace}
    (h : k.GroupingsAdded s w rs w₁) (hs : w.draft.HasSite s) (hplain : w.draft.Plain s)
    (c : Statement) :
    Gives (located (k.trace c) do return (← k.declareGrouping s c, c)) w₁
      fun r w' => k.GroupingsAdded s w (rs ++ [r]) w' ∧ r.2 = c := by
  have he := h.declares.enlarges
  rw [gives_located, gives_bind]
  refine (gives_declareGrouping he.sound (he.keeps.hasSite hs) (he.plain hs hplain)).mono ?_
  intro r w₂ ha
  rw [gives_pure]
  refine ⟨⟨h.declares.trans (.of_enlarges ha.enlarges ha.tasks) hs hplain, fun r' hr' => ?_⟩, rfl⟩
  rcases List.mem_append.1 hr' with hr' | hr'
  · obtain ⟨h₁, h₂⟩ := h.new r' hr'
    exact ⟨h₁, Nat.lt_of_lt_of_le h₂ ha.enlarges.keeps.groupings_le⟩
  · rw [List.mem_singleton.1 hr']
    refine ⟨?_, ha.lt⟩
    show _ ≤ r.2.index
    rw [ha.id]
    exact he.keeps.groupings_le

theorem gives_declareGroupings (hd : w.draft.Sound) (hs : w.draft.HasSite s)
    (hplain : w.draft.Plain s) (l : List Statement) :
    Gives (l.mapM fun c => located (k.trace c) do return (← k.declareGrouping s c, c)) w
      fun rs w' => k.GroupingsAdded s w rs w' ∧ ∀ r ∈ rs, r.2 ∈ l := by
  refine gives_mapM (I := fun pre rs w' => k.GroupingsAdded s w rs w' ∧ ∀ r ∈ rs, r.2 ∈ pre) l
    ⟨⟨.refl hd, by simp⟩, by simp⟩ ?_
  rintro pre c _ rs w₁ _ ⟨h, hrs⟩
  refine (h.gives_next hs hplain c).mono fun r w₂ ⟨h₂, hr⟩ => ⟨h₂, fun r' hr' => ?_⟩
  rcases List.mem_append.1 hr' with hr' | hr'
  · exact List.mem_append_left _ (hrs r' hr')
  · rw [List.mem_singleton.1 hr', hr]
    exact List.mem_append_right _ List.mem_cons_self

/-- The body of a new grouping may be declared. -/
theorem Stands.grouping {enclosing : List Owner} (h : k.Stands w.draft s enclosing)
    {w' : Workspace} (he : w.draft.Enlarges k.own s w'.draft) {g : GroupingId}
    (hg : w.draft.groupings.size ≤ g.index) (hlt : g.index < w'.draft.groupings.size) :
    k.Stands w'.draft (.grouping g) (enclosing ++ [.grouping g]) := by
  have hout : ∀ a, Owner.augment a ∈ enclosing ++ [.grouping g] → Owner.augment a ∈ enclosing := by
    simp
  refine ⟨hlt, fun i hi => (by cases hi), he.grouping_names g hg hlt, fun b hb => ?_, fun a ha => ?_,
    fun a ha u hu => ?_⟩
  · have hb' : b = .grouping g := by
      have := hb.eq_of_root fun i hi => (by cases hi)
      cases b with
      | grouping g' => cases this; rfl
      | augment a => cases this
    subst hb'
    exact ⟨by simp, he.grouping_names g hg hlt⟩
  · exact Nat.lt_of_lt_of_le (h.augment_lt a (hout a ha)) he.keeps.augments_le
  · exact h.loose a (hout a ha) u (he.mem_augmentations (h.augment_lt a (hout a ha)) hu)

/-- The body of a new grouping is declared. -/
theorem Declares.gives_grouping {body : BodyDeclarer} (hbody : k.DeclaresBodies body)
    {enclosing : List Owner} (hstands : k.Stands w.draft s enclosing) {w₁ : Workspace}
    (h : k.Declares s w w₁) {g : GroupingId} (hg : w.draft.groupings.size ≤ g.index)
    (hlt : g.index < w₁.draft.groupings.size) (c : Statement) (scope : Scope) :
    Gives (body (.grouping g) c scope (enclosing ++ [.grouping g])) w₁ fun _ w' =>
      k.Declares s w w' ∧ w₁.draft.groupings.size ≤ w'.draft.groupings.size := by
  have hstands₁ := hstands.grouping h.enlarges hg hlt
  refine (hbody _ c scope _ w₁ h.enlarges.sound hstands₁).mono ?_
  intro _ w₂ h₂
  exact ⟨h.trans_at h₂ (.inr (Nat.not_lt.2 hg)) hstands₁.plain, h₂.enlarges.keeps.groupings_le⟩

/-- One statement more is declared. -/
theorem Declares.gives_statement {body : BodyDeclarer} (hbody : k.DeclaresBodies body)
    {enclosing : List Owner} (hd : w.draft.Sound) (hstands : k.Stands w.draft s enclosing)
    {w₁ : Workspace} (h : k.Declares s w w₁) (c : Statement) (scope : Scope) :
    Gives (k.declareStatement body s c scope enclosing) w₁ fun _ w' => k.Declares s w w' := by
  refine (gives_declareStatement hbody h.enlarges.sound (hstands.enlarges hd h.enlarges) _).mono ?_
  intro _ w₂ h₂
  exact h.trans h₂ hstands.site hstands.plain

/-- Declaring bodies does what `Declares` says. -/
theorem declaresBodies (k : Setting) (fuel : Nat) : k.DeclaresBodies (k.declareBodyUpTo fuel) := by
  induction fuel with
  | zero => exact fun _ _ _ _ _ _ _ => gives_throw _
  | succ fuel ih =>
    intro s stmt scope enclosing w hd hstands
    rw [declareBodyUpTo, gives_bind]
    refine (gives_declareGroupings hd hstands.site hstands.plain _).mono ?_
    rintro rs w₁ ⟨⟨h₁, hnew⟩, -⟩
    dsimp only
    rw [gives_bind]
    refine (gives_forM (I := fun _ w' => k.Declares s w w' ∧
      w₁.draft.groupings.size ≤ w'.draft.groupings.size) rs ⟨h₁, Nat.le_refl _⟩ ?_).mono ?_
    · rintro pre ⟨⟨q, g⟩, c⟩ post w₂ hrs ⟨h₂, hle⟩
      obtain ⟨hg, hlt⟩ := hnew ((q, g), c) (by rw [hrs]; simp)
      dsimp only
      rw [gives_located]
      refine (h₂.gives_grouping ih hstands hg (Nat.lt_of_lt_of_le hlt hle) c _).mono ?_
      exact fun _ w₃ ⟨h₃, hle₃⟩ => ⟨h₃, Nat.le_trans hle hle₃⟩
    · rintro - w₂ ⟨h₂, -⟩
      refine gives_forM (I := fun _ w' => k.Declares s w w') _ h₂ ?_
      intro pre c post w₃ _ h₃
      rw [gives_located]
      exact h₃.gives_statement ih hd hstands c _

end Setting

end YangSchema
