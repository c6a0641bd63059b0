import YangSchema.Proofs.Declaration.Outline
import YangSchema.Proofs.Declaration.Rules
import YangSchema.Proofs.Declaration.Targets

/-!
# Declaring by outline

Every body is declared by an outline (`Setting.Outlined`): its groupings are listed at its site in their
order, whatever their bodies hold; and what stands further in is declared so by induction on the fuel.
The groupings of a body are there before any body in it is declared, so the scope that is passed on shows
all of them (`passes_own`).
-/

namespace YangSchema

open Draft Edit Declare

namespace Setting

variable {k : Setting} {w w' w₁ w₂ : Workspace} {s t : Site} {gs : List GroupingId} {stmt c u : Statement}
  {i : Nat} {scope outer : Scope} {enclosing : List Owner} {o base : Outline} {body : BodyDeclarer}

/-! ## Loops -/

theorem forM_map {β γ : Type} (g : β → γ) (f : γ → Declare PUnit) (l : List β) :
    (l.map g).forM f = l.forM fun z => f (g z) := by
  induction l with
  | nil => rfl
  | cons z l ih =>
    show (f (g z) >>= fun _ => (l.map g).forM f) = f (g z) >>= fun _ => l.forM fun z => f (g z)
    rw [ih]

variable (k s stmt outer base) in
/-- A loop over statements of a body, if each round is about one of them. -/
theorem gives_forM_part {β : Type} {l : List β} (key : β → Nat) (hkeys : (l.map key).Nodup)
    {I : Nat → Prop} {P : β → Outline → Draft → Prop}
    (hP : ∀ z o o' d d', P z o d → o ⊆ o' → d.KeepsLists d' → P z o' d') {f : β → Declare PUnit}
    (hs : w.draft.HasSite s)
    (hf : ∀ z ∈ l, ∀ w₁, w.draft.KeepsLists w₁.draft → Gives (f z) w₁ fun _ w₂ =>
      ∃ o, k.Part s stmt outer base (fun i => i = key z ∧ I i) [] o w₁ w₂ ∧ P z o w₂.draft) :
    Gives (l.forM f) w fun _ w' =>
      ∃ o, k.Part s stmt outer base I [] o w w' ∧ ∀ z ∈ l, P z o w'.draft := by
  refine (gives_forM (I := fun pre w' => ∃ o,
    k.Part s stmt outer base (fun i => i ∈ pre.map key ∧ I i) [] o w w' ∧ ∀ z ∈ pre, P z o w'.draft) l
    ⟨[], .nothing (.refl _) rfl, by simp⟩ ?_).mono ?_
  · rintro pre z post w₁ hl ⟨o, ho, hdone⟩
    refine (hf z (by rw [hl]; simp) w₁ ho.made.lists.keepsLists).mono ?_
    rintro _ w₂ ⟨o', ho', hz⟩
    have hkey : key z ∉ pre.map key := by
      rw [hl, List.map_append, List.map_cons] at hkeys
      exact fun h => (List.nodup_append.1 hkeys).2.2 _ h _ List.mem_cons_self rfl
    refine ⟨o ++ o', (ho.append ho' hs ?_).weaken ?_, fun x hx => ?_⟩
    · rintro i ⟨hi, -⟩ ⟨rfl, -⟩
      exact hkey hi
    · rintro i (⟨hi, hI⟩ | ⟨rfl, hI⟩)
      · exact ⟨by simp [hi], hI⟩
      · exact ⟨by simp, hI⟩
    · rcases List.mem_append.1 hx with hx | hx
      · exact hP x _ _ _ _ (hdone x hx) (List.subset_append_left _ _) ho'.made.lists.keepsLists
      · cases List.mem_singleton.1 hx
        exact hP z _ _ _ _ hz (List.subset_append_right _ _) (.refl _)
  · rintro _ w' ⟨o, ho, hdone⟩
    exact ⟨o, ho.weaken fun _ h => h.2, hdone⟩

/-! ## New sites -/

/-- A site was made for the body of the statement, which is still to be declared. -/
structure Awaits (k : Setting) (c : Statement) (t : Site) (w w' : Workspace) : Prop where
  fresh : ¬ w.draft.HasSite t
  there : w'.draft.HasSite t
  empty : w'.draft.groupingsAt t = []
  houses : k.prefixes.Houses w'.draft c t

theorem Awaits.mono (h : k.Awaits c t w w₁) (hlists : ListsMore s gs w₁.draft w₂.draft) (hne : t ≠ s) :
    k.Awaits c t w w₂ where
  fresh := h.fresh
  there := hlists.hasSite h.there
  empty := (hlists.at_other h.there hne).trans h.empty
  houses := h.houses.mono hlists.names h.there

/-- A site was made for the body of the statement; `s` lists `gs` more. -/
structure Opened (k : Setting) (s : Site) (gs : List GroupingId) (c : Statement) (t : Site)
    (w w' : Workspace) : Prop extends k.Awaits c t w w' where
  lists : ListsMore s gs w.draft w'.draft
  tasks : w'.tasks.uses = w.tasks.uses

theorem gives_declareGrouping_opened (hs : w.draft.HasSite s) (hc : c.keyword = .word .grouping) :
    Gives (k.declareGrouping s c) w fun r w' => k.Opened s [r.2] c (.grouping r.2) w w' ∧
      c.argument.map k.prefixes.ownName = some r.1 := by
  unfold declareGrouping
  rw [gives_bind, gives_check]
  intro text htext
  replace htext := argument_of_requireArgument htext
  rw [gives_bind, gives_check]
  intro docs _
  rw [gives_bind, gives_get, gives_bind]
  refine gives_edit ((ends_addGrouping _).2 ?_)
  generalize hr : ({
      facts := {
        name := k.prefixes.ownName text
        path := (w.draft.pathOf s).child (k.prefixes.ownName text)
        docs } } : GroupingDraft) = r
  generalize hg : (⟨w.draft.groupings.size⟩ : GroupingId) = g
  have hkeeps := keepsLists_withGrouping w.draft r
  have hnew : (w.draft.withGrouping r).grouping g = r := by
    rw [grouping_withGrouping, ← hg, if_pos rfl]
  have hthere : (w.draft.withGrouping r).HasSite (.grouping g) := by
    rw [← hg]
    exact Shelf.lt_size_push _ _
  have hfresh : ¬ w.draft.HasSite (.grouping g) := by
    rw [← hg]
    exact Nat.lt_irrefl _
  rw [gives_bind]
  refine gives_edit ((ends_pushGrouping_lists g).mono (fun _ d' h => ?_) fun _ _ => id)
  rw [gives_pure]
  refine ⟨⟨⟨hfresh, h.hasSite hthere, ?_, hc, text, htext, ?_⟩, hkeeps.trans_lists h, rfl⟩,
    by rw [htext]; rfl⟩
  · rw [h.at_other hthere fun heq => hfresh (heq ▸ hs)]
    show ((w.draft.withGrouping r).grouping g).groupings = []
    rw [hnew, ← hr]
  · show (d'.grouping g).facts.name = _
    rw [h.names.grouping g hthere, hnew, ← hr]

theorem gives_declareNode_opened {kind : Except Fault NodeKind}
    (hc : (c.nodeKind? k.prefixes).isSome) :
    Gives (k.declareNode s c kind) w fun i w' => k.Opened s [] c (.node i) w w' := by
  unfold declareNode
  rw [gives_bind, gives_check]
  intro text htext
  rw [gives_bind, gives_check]
  intro kind' _
  rw [gives_bind, gives_check]
  intro docs _
  rw [gives_bind, gives_check]
  intro config _
  rw [gives_bind, gives_check]
  intro constraints _
  dsimp only
  rw [gives_bind]
  refine gives_edit ((ends_addNode _).2 ?_)
  generalize hr : ({ NodeDraft.blank kind' (k.prefixes.ownName text) with
      config
      facts := { (NodeDraft.blank kind' (k.prefixes.ownName text)).facts with
        docs, constraints, properties := c.properties kind' } } : NodeDraft) = r
  generalize hi : (⟨w.draft.nodes.size⟩ : NodeId) = i
  have hnew : (w.draft.withNode r).node i = r := by
    rw [node_withNode, ← hi, if_pos rfl]
  have hthere : (w.draft.withNode r).HasSite (.node i) := by
    rw [← hi]
    exact Shelf.lt_size_push _ _
  have hfresh : ¬ w.draft.HasSite (.node i) := by
    rw [← hi]
    exact Nat.lt_irrefl _
  rw [gives_bind, gives_discard]
  refine gives_edit ((ends_attach_quiet i).mono (fun _ d' h => ?_) fun _ _ => id)
  rw [gives_pure]
  refine ⟨⟨hfresh, h.hasSite hthere, ?_, hc, text, htext, ?_⟩,
    ((keepsLists_withNode _ r).trans h).listsMore s, rfl⟩
  · rw [h.listed _ hthere]
    show ((w.draft.withNode r).node i).groupings = []
    rw [hnew, ← hr]
    rfl
  · show (d'.node i).name = _
    rw [h.names.node i hthere, hnew, ← hr]
    rfl

theorem gives_declareAugment_opened {target : SchemaPath} {order : Nat}
    (hc : c.keyword = .word .augment) :
    Gives (k.declareAugment c target order) w fun a w' => k.Opened s [] c (.augment a) w w' := by
  unfold declareAugment
  rw [gives_bind, gives_check]
  intro docs _
  refine gives_edit ((ends_addAugment _).2
    ⟨⟨?_, ?_, rfl, hc⟩, (keepsLists_withAugment _ _).listsMore s, rfl⟩)
  · exact Nat.lt_irrefl _
  · exact Shelf.lt_size_push _ _

/-! ## Bodies -/

/-- The body of `stmt` was declared at the site `s`, by the outline `o`; `s` lists the groupings `gs`
more.  At the top of a module the augmentations are not declared with the body. -/
structure Outlined (k : Setting) (s : Site) (stmt : Statement) (outer : Scope) (gs : List GroupingId)
    (o : Outline) (d : Draft) : Prop where
  heads : ∀ e ∈ o, ∃ i p c, e.1 = i :: p ∧ stmt.children[i]? = some c ∧ c.keyword ≠ .word .augment
  nodup : (o.map Prod.fst).Nodup
  listed : List.Forall₂ (fun e g => ([e.2], Mark.body (.grouping g)) ∈ o)
    (stmt.allAt (.word .grouping)) gs
  describes : k.Describes s stmt outer o d o
  complete : ∀ i c, stmt.children[i]? = some c → c.keyword ≠ .word .augment → k.prefixes.Covers stmt i o
  plain : (∀ m, s ≠ .module m) → ∀ c ∈ stmt.children, c.keyword ≠ .word .augment

/-- Below the top of a module every uses is in the outline. -/
theorem Outlined.exists_task {d : Draft} (h : k.Outlined s stmt outer gs o d) (hs : ∀ m, s ≠ .module m)
    {p : Position} (hin : k.prefixes.Inside stmt p u) (hu : u.keyword = .word .uses) :
    ∃ t, (p, .uses t) ∈ o := by
  cases hin with
  | direct hc _ =>
    exact h.complete _ _ hc (h.plain hs _ (List.mem_of_getElem? hc)) _ _ (.direct hc ‹_›) hu
  | deeper hc hsees hopens hin =>
    exact h.complete _ _ hc (h.plain hs _ (List.mem_of_getElem? hc)) _ _ (.deeper hc hsees hopens hin) hu

/-- A way to declare bodies by outlines. -/
def Outlines (k : Setting) (body : BodyDeclarer) : Prop :=
  ∀ (s : Site) (stmt : Statement) (scope : Scope) (enclosing : List Owner) (w : Workspace),
    w.draft.HasSite s → stmt.keyword ≠ .word .uses → Gives (body s stmt scope enclosing) w fun _ w' =>
      ∃ gs o, o.Made s gs w w' ∧ k.Outlined s stmt scope gs o w'.draft

/-- The site of a body lists what the statement defines. -/
theorem Outlined.listedAt {all : Outline} (h : k.Outlined t c scope gs o w₂.draft)
    (hawaits : k.Awaits c t w w₁) (hmade : o.Made t gs w₁ w₂) (ho : o.under i ⊆ all) :
    c.ListedAt w₂.draft all [i] t := by
  unfold Statement.ListedAt
  rw [hmade.lists.at_self hawaits.there, hawaits.empty, List.nil_append]
  exact h.listed.imp fun e g hg => ho (Outline.mem_under.2 ⟨_, rfl, hg⟩)

theorem Outlined.ne_nil {d : Draft} (h : k.Outlined s stmt outer gs o d) : ∀ e ∈ o, e.1 ≠ [] := by
  intro e he
  obtain ⟨i, p, -, hp, -⟩ := h.heads e he
  exact hp ▸ List.cons_ne_nil i p

/-- With its body every uses in a statement is in the outline. -/
theorem Outlined.covers {d : Draft} (h : k.Outlined t c scope gs o d) (ht : ∀ m, t ≠ .module m)
    (hc : stmt.children[i]? = some c) (hne : c.keyword ≠ .word .uses) :
    k.prefixes.Covers stmt i (([i], .body t) :: o.under i) := by
  intro p u hin hu
  cases hin with
  | direct hc' _ =>
    rw [hc] at hc'
    cases hc'
    exact absurd hu hne
  | deeper hc' _ _ hin =>
    rw [hc] at hc'
    cases hc'
    obtain ⟨x, hx⟩ := h.exists_task ht hin hu
    exact ⟨x, List.mem_cons_of_mem _ (Outline.mem_under.2 ⟨_, rfl, hx⟩)⟩

/-- A body is declared at a site that was made for it. -/
theorem Part.append_body {I : Nat → Prop} {o' : Outline} (h : k.Part s stmt outer base I gs o w w₁)
    (hawaits : k.Awaits c t w w₁) (hnew : t ∉ o.sites) {gs' : List GroupingId}
    (hmade : o'.Made t gs' w₁ w₂) (hout : k.Outlined t c scope gs' o' w₂.draft)
    (hc : stmt.children[i]? = some c) (hi : ¬ I i)
    (hs : stmt.keyword = .word .uses → c.keyword = .word .augment) (hopens : k.prefixes.Opens c)
    (hpasses : k.prefixes.Passes stmt c outer scope base) :
    k.Part s stmt outer base (fun j => I j ∨ j = i) gs (o ++ ([i], .body t) :: o'.under i) w w₂ := by
  have hheads : ∀ e ∈ ([i], Mark.body t) :: o'.under i, ∃ j p, e.1 = j :: p ∧ j = i := by
    intro e he
    rcases List.mem_cons.1 he with rfl | he
    · exact ⟨i, [], rfl, rfl⟩
    · obtain ⟨p, hp, -⟩ := Outline.mem_under.1 he
      exact ⟨i, p, hp, rfl⟩
  have hall : o ++ ([i], .body t) :: o'.under i ⊆ base ++ (o ++ ([i], .body t) :: o'.under i) :=
    List.subset_append_right _ _
  have hunder : o'.under i ⊆ base ++ (o ++ ([i], .body t) :: o'.under i) := fun _ hx =>
    hall (List.mem_append_right _ (List.mem_cons_of_mem _ hx))
  refine ⟨?_, fun e he => ?_, ?_, ?_⟩
  · have hadopt := h.made.adopt (p := [i]) hawaits.fresh hawaits.there hnew
    simpa using hadopt.trans_new (hmade.under i) hawaits.fresh
  · rcases List.mem_append.1 he with he | he
    · obtain ⟨j, p, hp, hj⟩ := h.heads e he
      exact ⟨j, p, hp, .inl hj⟩
    · obtain ⟨j, p, hp, hj⟩ := hheads e he
      exact ⟨j, p, hp, .inr hj⟩
  · rw [List.map_append]
    refine h.nodup.append ?_ (disjoint h.heads hheads ?_)
    · exact List.nodup_cons.2 ⟨Outline.notMem_under hout.ne_nil, Outline.nodup_under hout.nodup⟩
    · rintro j hj rfl
      exact hi hj
  · refine .append (h.describes.mono ?_ hmade.lists fun x hx => ⟨h.made.there x hx, ?_⟩) (.cons ?_ ?_)
    · exact List.append_subset.2 ⟨List.subset_append_left _ _,
        fun _ hx => hall (List.mem_append_left _ hx)⟩
    · rintro rfl
      exact hnew hx
    · exact .body ⟨c, .direct hc hs, hawaits.houses.mono hmade.lists.names hawaits.there,
        hout.listedAt hawaits hmade hunder⟩
    · refine hout.describes.under hc hs hopens ?_ (fun _ => hall (by simp)) hunder
      exact fun q => (hpasses q).mono (List.subset_append_left _ _)

/-- A statement with a body of its own: a site is made for it, and then the body is declared. -/
theorem Part.of_body (hopened : k.Opened s [] c t w w₁) (hmade : o.Made t gs w₁ w₂)
    (h : k.Outlined t c scope gs o w₂.draft) (hc : stmt.children[i]? = some c)
    (hs : stmt.keyword = .word .uses → c.keyword = .word .augment) (hopens : k.prefixes.Opens c)
    (hpasses : k.prefixes.Passes stmt c outer scope base) :
    k.Part s stmt outer base (· = i) [] (([i], .body t) :: o.under i) w w₂ := by
  have hnothing : k.Part s stmt outer base (fun _ => False) [] [] w w₁ :=
    .nothing hopened.lists.keepsLists hopened.tasks
  exact (hnothing.append_body hopened.toAwaits List.not_mem_nil hmade h hc id hs hopens hpasses).weaken
    fun j hj => hj.resolve_left id

/-! ## Uses -/

theorem keywords_of_nodeKind? {b : Prefixes} (h : (c.nodeKind? b).isSome) :
    c.keyword ≠ .word .grouping ∧ c.keyword ≠ .word .uses ∧ c.keyword ≠ .word .augment := by
  refine ⟨fun hk => ?_, fun hk => ?_, fun hk => ?_⟩ <;>
    · unfold Statement.nodeKind? at h
      rw [hk] at h
      cases h

/-- What comes before and keeps all lists and leaves no task changes nothing. -/
theorem Part.of_keeps {I : Nat → Prop} (h : k.Part s stmt outer base I gs o w₁ w₂)
    (hkeeps : w.draft.KeepsLists w₁.draft) (ht : w₁.tasks.uses = w.tasks.uses) :
    k.Part s stmt outer base I gs o w w₂ :=
  { h with made := by simpa using (Outline.Made.nothing hkeeps ht).trans h.made }

/-- What follows that keeps all lists and leaves no task changes nothing. -/
theorem Part.trans_keeps {I : Nat → Prop} (h : k.Part s stmt outer base I gs o w w₁)
    (hs : w.draft.HasSite s) (hkeeps : w₁.draft.KeepsLists w₂.draft)
    (ht : w₂.tasks.uses = w₁.tasks.uses) : k.Part s stmt outer base I gs o w w₂ where
  made := by simpa using h.made.trans (.nothing hkeeps ht)
  heads := h.heads
  nodup := h.nodup
  describes := h.describes.mono (List.Subset.refl _) (hkeeps.listsMore s) fun t ht =>
    ⟨h.made.there t ht, h.ne_site hs ht⟩

/-- The augmentation in a `uses` is declared with its body. -/
theorem gives_declareScoped_part (hbody : k.Outlines body) (hs : w.draft.HasSite s)
    (hu : u.keyword = .word .uses) (hc : u.children[i]? = some c) (hkeyword : c.keyword = .word .augment)
    (x : UsesId) :
    Gives (do
      let target ← Declare.check (k.descendantPath c)
      let a ← k.declareAugment c target (← Declare.nextOrder)
      body (.augment a) c scope (enclosing ++ [.augment a])
      Declare.edit (Draft.editUses x fun r => { r with augmentations := r.augmentations ++ [a] })) w
    fun _ w' => ∃ o, k.Part s u scope [] (· = i) [] o w w' ∧ k.prefixes.Covers u i o := by
  rw [gives_bind, gives_check]
  intro target _
  rw [gives_bind, gives_nextOrder, gives_bind]
  refine (gives_declareAugment_opened (s := s) hkeyword).mono fun a w₁ hopened => ?_
  replace hopened : k.Opened s [] c (.augment a) w w₁ := { hopened with }
  rw [gives_bind]
  have hne : c.keyword ≠ .word .uses := by
    rw [hkeyword]
    decide
  refine (hbody (.augment a) c scope _ w₁ hopened.there hne).mono ?_
  rintro _ w₂ ⟨gs, o, hmade, hout⟩
  refine gives_edit ((ends_editUses_quiet (by intro; rfl) x).mono (fun _ d₃ h₃ => ?_) fun _ _ => id)
  have hsees : u.sees c = false := by
    rw [Statement.sees, hu]
    rfl
  have hopens : k.prefixes.Opens c := .inr (.inr (.inl hkeyword))
  exact ⟨_, (Part.of_body hopened hmade hout hc (fun _ => hkeyword) hopens
    (Prefixes.passes_of_not_sees hsees)).trans_keeps hs h₃ rfl, hout.covers (by simp) hc hne⟩

/-- Seen from the statement around it, a uses leaves what the augmentations in it leave, and its task. -/
theorem Part.of_uses {I : Nat → Prop} {x : UsesTask} (h : k.Part s u scope [] I [] o w w₁)
    (ht : w₂.tasks.uses = w₁.tasks.uses ++ [x]) (hd : w₂.draft = w₁.draft)
    (hasked : k.Asked s stmt outer (base ++ (o.under i ++ [([i], .uses x)])) [i] x)
    (hi : stmt.children[i]? = some u) (hu : u.keyword = .word .uses) (hne : stmt.keyword ≠ .word .uses)
    (hpasses : k.prefixes.Passes stmt u outer scope base) :
    k.Part s stmt outer base (· = i) [] (o.under i ++ [([i], .uses x)]) w w₂ where
  made := by
    have htask : Outline.Made [([i], .uses x)] s [] w₁ w₂ := .task (hd ▸ .refl _) ht
    simpa using (h.made.under i).trans htask
  heads := by
    rintro ⟨p, m⟩ hmem
    rcases List.mem_append.1 hmem with hmem | hmem
    · obtain ⟨p', hp, -⟩ := Outline.mem_under.1 hmem
      exact ⟨i, p', hp, rfl⟩
    · cases List.mem_singleton.1 hmem
      exact ⟨i, [], rfl, rfl⟩
  nodup := by
    rw [List.map_append]
    refine (Outline.nodup_under h.nodup).append (List.nodup_singleton _) fun p hp hp' => ?_
    cases List.mem_singleton.1 hp'
    refine Outline.notMem_under (fun e he => ?_) hp
    obtain ⟨j, r, hj, -⟩ := h.heads e he
    exact hj ▸ List.cons_ne_nil j r
  describes := by
    have hdescribes : k.Describes s u scope o w₂.draft o := hd ▸ h.describes
    have hunder : o.under i ⊆ base ++ (o.under i ++ [([i], .uses x)]) :=
      fun _ hx => List.mem_append_right _ (List.mem_append_left _ hx)
    refine .append (hdescribes.under hi (fun h => absurd h hne) (.inr (.inl hu)) ?_
      (fun h => absurd hu h) hunder) (.task hasked)
    exact fun q => (hpasses q).mono (List.subset_append_left _ _)

theorem covers_of_uses {b : Prefixes} {x : UsesTask} (hi : stmt.children[i]? = some u)
    (hu : u.keyword = .word .uses) (h : ∀ z ∈ u.allAt (.word .augment), b.Covers u z.2 o) :
    b.Covers stmt i (o.under i ++ [([i], .uses x)]) := by
  intro p e hin he
  cases hin with
  | direct _ _ => exact ⟨x, by simp⟩
  | deeper hi' _ _ hin =>
    rw [hi] at hi'
    cases hi'
    obtain ⟨j, p', rfl⟩ := List.exists_cons_of_ne_nil hin.ne_nil
    obtain ⟨c, hc⟩ : ∃ c, (c, j) ∈ u.allAt (.word .augment) := by
      cases hin with
      | direct hc hsees => exact ⟨_, Statement.mem_allAt.2 ⟨hc, hsees hu⟩⟩
      | deeper hc hsees _ _ => exact ⟨_, Statement.mem_allAt.2 ⟨hc, hsees hu⟩⟩
    obtain ⟨x', hx'⟩ := h _ hc p' e hin he
    exact ⟨x', List.mem_append_left _ (Outline.mem_under.2 ⟨_, rfl, hx'⟩)⟩

/-- A `uses` leaves its task, and with it what the augmentations in it leave. -/
theorem gives_declareUses_part (hbody : k.Outlines body) (hs : w.draft.HasSite s)
    (hne : stmt.keyword ≠ .word .uses) (hi : stmt.children[i]? = some u)
    (hu : u.keyword = .word .uses) (hpasses : k.prefixes.Passes stmt u outer scope base) :
    Gives (k.declareUses body s u scope enclosing) w fun _ w' => ∃ o,
      k.Part s stmt outer base (· = i) [] o w w' ∧ k.prefixes.Covers stmt i o := by
  unfold declareUses
  rw [gives_bind, gives_check]
  intro name hname
  rw [gives_bind]
  refine gives_edit ((ends_addUses _).2 ?_)
  generalize hx : (⟨w.draft.uses.size⟩ : UsesId) = x
  have h₁ := keepsLists_withUses w.draft { facts := { grouping := SchemaPath.root.child name } }
  rw [gives_bind]
  refine gives_edit ((ends_pushUses_quiet x).mono (fun _ d₂ h₂ => ?_) fun _ _ => id)
  replace h₂ := h₁.trans h₂
  generalize hw₂ : ({ w with draft := d₂ } : Workspace) = w₂
  -- the refines are read
  rw [gives_bind]
  refine (gives_readAll _).mono ?_
  rintro refines w' ⟨rfl, -⟩
  subst hw₂
  rw [gives_bind]
  refine gives_edit ((ends_editUses_quiet (by intro; rfl) x).mono (fun _ d₃ h₃ => ?_) fun _ _ => id)
  replace h₃ := h₂.trans h₃
  generalize hw₃ : ({ w with draft := d₃ } : Workspace) = w₃
  have hkeeps : w.draft.KeepsLists w₃.draft := hw₃ ▸ h₃
  have htasks : w₃.tasks.uses = w.tasks.uses := hw₃ ▸ rfl
  -- the augmentations in it, by their numbers
  rw [gives_bind, ← Statement.map_fst_allAt, forM_map]
  refine (gives_forM_part k s u scope [] Prod.snd (I := fun _ => True)
    (P := fun z o _ => k.prefixes.Covers u z.2 o) (Statement.nodup_allAt _ u) ?_
    (hkeeps.hasSite hs) ?_).mono ?_
  · rintro z o o' - - h ho -
    exact h.mono ho
  · rintro ⟨c, j⟩ hz w₄ h₄
    obtain ⟨hc, hkeyword⟩ := Statement.mem_allAt.1 hz
    rw [gives_located]
    refine (gives_declareScoped_part hbody (h₄.hasSite (hkeeps.hasSite hs)) hu hc hkeyword x).mono ?_
    rintro _ w₅ ⟨o, ho, hall⟩
    exact ⟨o, ho.weaken fun _ h => ⟨h, trivial⟩, hall⟩
  rintro _ w₄ ⟨o, ho, hall⟩
  rw [gives_addUsesTask]
  generalize ht : UsesTask.mk x s name scope enclosing k.own refines (k.trace u) = t
  have hsees : stmt.keyword = .word .uses → u.keyword = .word .augment := fun h => absurd h hne
  obtain ⟨text, htext, hq⟩ := exists_of_bind_eq_ok hname
  refine ⟨_, Part.of_uses (ho.of_keeps hkeeps htasks) rfl rfl ⟨?_, ht ▸ rfl, ?_, fun q => ?_⟩ hi hu hne
    hpasses, covers_of_uses hi hu hall⟩
  · exact ⟨u, text, .direct hi hsees, hu, argument_of_requireArgument htext, ht ▸ hq, ht ▸ rfl⟩
  · exact ⟨[], i, rfl, .inl ⟨rfl, ht ▸ rfl, hne⟩⟩
  · rw [Prefixes.nearest?_cons hi, Prefixes.nearest?, ← ht]
    exact (hpasses q).mono (List.subset_append_left _ _)

/-! ## Statements -/

theorem opens_cases {b : Prefixes} (h : b.Opens c) (hkind : c.nodeKind? b = none) :
    c.keyword = .word .grouping ∨ c.keyword = .word .uses ∨ c.keyword = .word .augment := by
  rcases h with h | h | h | h
  · exact .inl h
  · exact .inr (.inl h)
  · exact .inr (.inr h)
  · rw [hkind] at h
    cases h

theorem gives_declareTypedef_quiet :
    Gives (k.declareTypedef s c) w fun _ w' => w.draft.KeepsLists w'.draft ∧
      w'.tasks.uses = w.tasks.uses := by
  unfold declareTypedef
  rw [gives_bind, gives_check]
  intro text _
  split
  · rw [gives_bind, gives_check]
    intro docs _
    exact gives_edit ((ends_pushTypedef_quiet _).mono (fun _ d' h => ⟨h, rfl⟩) fun _ _ => id)
  · exact gives_throw _

/-- The statements that are declared with a body, after its groupings. -/
def IsPlain (c : Statement) : Prop := c.keyword ≠ .word .grouping ∧ c.keyword ≠ .word .augment

theorem gives_declareStatement_part (hbody : k.Outlines body) (hs : w.draft.HasSite s)
    (hne : stmt.keyword ≠ .word .uses) (hi : stmt.children[i]? = some c)
    (hpasses : c.keyword ≠ .word .augment → k.prefixes.Passes stmt c outer scope base) :
    Gives (k.declareStatement body s c scope enclosing) w fun _ w' => ∃ o,
      k.Part s stmt outer base (fun j => j = i ∧ IsPlain c) [] o w w' ∧
      (IsPlain c → k.prefixes.Covers stmt i o) ∧
      ((∀ m, s ≠ .module m) → c.keyword ≠ .word .augment) := by
  have hsees : stmt.keyword = .word .uses → c.keyword = .word .augment := fun h => absurd h hne
  -- what is neither a node nor a uses has no uses in it
  have hcovers : c.nodeKind? k.prefixes = none → c.keyword ≠ .word .uses → IsPlain c →
      k.prefixes.Covers stmt i [] := by
    intro hkind huses hplain
    refine Prefixes.covers_of_not_opens hi fun hopens => ?_
    rcases opens_cases hopens hkind with h | h | h
    · exact hplain.1 h
    · exact huses h
    · exact hplain.2 h
  refine gives_declareStatement_of (fun kind hkind => ?_) (fun unknown x hkind hunknown _ => ?_)
    (fun _ _ hkeyword => ?_) (fun hkind _ hkeyword => ?_) fun hkind _ huses _ hmodule => ?_
  · have hsome : (c.nodeKind? k.prefixes).isSome := by
      rw [hkind]
      rfl
    obtain ⟨hgrouping, huses, haugment⟩ := keywords_of_nodeKind? hsome
    refine (gives_declareNode_opened hsome).mono fun x w₁ hopened => ?_
    refine (hbody (.node x) c scope enclosing w₁ hopened.there huses).mono ?_
    rintro _ w₂ ⟨gs, o, hmade, hout⟩
    have hpart := Part.of_body hopened hmade hout hi hsees (.inr (.inr (.inr hsome))) (hpasses haugment)
    exact ⟨_, hpart.weaken fun j hj => ⟨hj, hgrouping, haugment⟩,
      fun _ => hout.covers (by simp) hi huses, fun _ => haugment⟩
  · have hnot := Statement.keyword_ne_of_unknown? hunknown
    refine gives_edit ((ends_pushUnknown_quiet _).mono (fun _ d' h => ?_) fun _ _ => id)
    exact ⟨[], .nothing h rfl, hcovers hkind (hnot .uses), fun _ => hnot .augment⟩
  · have hplain : IsPlain c := by
      constructor <;>
      · rw [hkeyword]
        decide
    refine (gives_declareUses_part hbody hs hne hi hkeyword (hpasses hplain.2)).mono ?_
    rintro _ w' ⟨o, ho, hall⟩
    exact ⟨o, ho.weaken fun j hj => ⟨hj, hplain⟩, fun _ => hall, fun _ => hplain.2⟩
  · have hnot : c.keyword ≠ .word .uses ∧ c.keyword ≠ .word .augment := by
      constructor <;>
      · rw [hkeyword]
        decide
    refine gives_declareTypedef_quiet.mono ?_
    rintro _ w' ⟨h, ht⟩
    exact ⟨[], .nothing h ht, hcovers hkind hnot.1, fun _ => hnot.2⟩
  · refine ⟨[], .nothing (.refl _) rfl, hcovers hkind huses, fun hs' hkeyword => ?_⟩
    obtain ⟨m, hm⟩ := hmodule (.inl hkeyword)
    exact hs' m hm

/-! ## Groupings -/

/-- The groupings of a body, with their names and numbers, before their bodies are declared. -/
structure Registered (k : Setting) (s : Site) (zs : List ((Statement × Nat) × QName × GroupingId))
    (w w' : Workspace) : Prop where
  lists : ListsMore s (zs.map fun z => z.2.2) w.draft w'.draft
  tasks : w'.tasks.uses = w.tasks.uses
  nodup : (zs.map fun z => z.2.2).Nodup
  named : ∀ z ∈ zs, z.1.1.argument.map k.prefixes.ownName = some z.2.1
  awaits : ∀ z ∈ zs, k.Awaits z.1.1 (.grouping z.2.2) w w'

theorem gives_declareGroupings_registered (hs : w.draft.HasSite s) {l : List (Statement × Nat)}
    (hl : ∀ e ∈ l, e.1.keyword = .word .grouping) :
    Gives ((l.map Prod.fst).mapM fun c => located (k.trace c) do return (← k.declareGrouping s c, c)) w
      fun rs w' => ∃ zs : List ((Statement × Nat) × QName × GroupingId),
        zs.map Prod.fst = l ∧ rs = zs.map (fun z => (z.2, z.1.1)) ∧ k.Registered s zs w w' := by
  rw [List.mapM_map]
  refine gives_mapM (I := fun pre rs w' => ∃ zs : List ((Statement × Nat) × QName × GroupingId),
    zs.map Prod.fst = pre ∧ rs = zs.map (fun z => (z.2, z.1.1)) ∧ k.Registered s zs w w') l
    ⟨[], rfl, rfl, (KeepsLists.refl _).listsMore s, rfl, .nil, by simp, by simp⟩ ?_
  rintro pre e post _ w₁ hsplit ⟨zs, rfl, rfl, hzs⟩
  rw [Function.comp_apply, gives_located, gives_bind]
  have hs₁ := hzs.lists.hasSite hs
  refine (gives_declareGrouping_opened hs₁ (hl e (by rw [hsplit]; simp))).mono ?_
  rintro ⟨q, g⟩ w₂ ⟨hopened, hname⟩
  rw [gives_pure]
  have hlists : ListsMore s ((zs ++ [(e, q, g)]).map fun z => z.2.2) w.draft w₂.draft := by
    rw [List.map_append]
    exact hzs.lists.trans hopened.lists
  refine ⟨zs ++ [(e, q, g)], by simp, by simp, hlists, hopened.tasks.trans hzs.tasks, ?_, ?_, ?_⟩
  · rw [List.map_append]
    refine hzs.nodup.append (List.nodup_singleton _) fun x hx hx' => ?_
    cases List.mem_singleton.1 hx'
    obtain ⟨z, hz, hg⟩ := List.mem_map.1 hx
    exact hopened.fresh (congrArg Site.grouping hg ▸ (hzs.awaits z hz).there)
  · intro z hz
    rcases List.mem_append.1 hz with hz | hz
    · exact hzs.named z hz
    · cases List.mem_singleton.1 hz
      exact hname
  · intro z hz
    rcases List.mem_append.1 hz with hz | hz
    · refine (hzs.awaits z hz).mono hopened.lists fun h => ?_
      exact (hzs.awaits z hz).fresh (h ▸ hs)
    · cases List.mem_singleton.1 hz
      exact { hopened.toAwaits with fresh := fun h => hopened.fresh (hzs.lists.hasSite h) }

/-- The sites of the groupings of a body. -/
def groupingSites (zs : List ((Statement × Nat) × QName × GroupingId)) : Outline :=
  zs.map fun z => ([z.1.2], .body (.grouping z.2.2))

/-- The scope of a body finds the groupings of the body, the last of a name first. -/
theorem Registered.passes {zs : List ((Statement × Nat) × QName × GroupingId)}
    (h : k.Registered s zs w w₁) (hzs : zs.map Prod.fst = stmt.allAt (.word .grouping))
    (hsees : stmt.sees c = true) :
    k.prefixes.Passes stmt c outer ((zs.map Prod.snd).reverse ++ outer) (groupingSites zs) := by
  intro q
  have hsame : zs.reverse.find? (fun z => z.1.1.argument.map k.prefixes.ownName == some q) =
      zs.reverse.find? fun z => z.2.1 == q := by
    refine List.find?_congr fun z hz => ?_
    rw [h.named z (List.mem_reverse.1 hz)]
    rfl
  have hdefinition : k.prefixes.definition? q stmt =
      (zs.reverse.find? fun z => z.2.1 == q).map fun z => z.1.2 := by
    rw [← hsame, Prefixes.definition?, ← hzs, ← List.map_reverse, List.find?_map, Option.map_map]
    rfl
  have hfind : Scope.find? ((zs.map Prod.snd).reverse ++ outer) q =
      ((zs.reverse.find? fun z => z.2.1 == q).map fun z => z.2.2).or (outer.find? q) := by
    rw [Scope.find?, List.find?_append, ← List.map_reverse, List.find?_map, Option.map_or,
      Option.map_map]
    rfl
  rw [Prefixes.shown?, if_pos hsees, hdefinition]
  cases hz : zs.reverse.find? fun z => z.2.1 == q with
  | none =>
    rw [hz] at hfind
    exact hfind
  | some z =>
    rw [hz] at hfind
    have hmem := List.mem_reverse.1 (List.mem_of_find?_eq_some hz)
    exact ⟨z.2.2, List.mem_map.2 ⟨z, hmem, rfl⟩, hfind⟩

theorem grouping_of_mem {zs : List ((Statement × Nat) × QName × GroupingId)}
    (hzs : zs.map Prod.fst = stmt.allAt (.word .grouping)) {z : (Statement × Nat) × QName × GroupingId}
    (hz : z ∈ zs) : stmt.children[z.1.2]? = some z.1.1 ∧ z.1.1.keyword = .word .grouping := by
  refine Statement.mem_allAt.1 ?_
  rw [← hzs]
  exact List.mem_map.2 ⟨z, hz, rfl⟩

/-- Of the groupings `zs` those in `pre` have their bodies, by the outline `o`, and the others wait. -/
structure BodiesDone (k : Setting) (s : Site) (stmt : Statement) (outer : Scope) (base : Outline)
    (zs pre : List ((Statement × Nat) × QName × GroupingId)) (o : Outline) (w w' : Workspace) : Prop where
  part : k.Part s stmt outer base (· ∈ pre.map fun z => z.1.2) (zs.map fun z => z.2.2) o w w'
  done : ∀ z ∈ pre, ([z.1.2], .body (.grouping z.2.2)) ∈ o ∧ k.prefixes.Covers stmt z.1.2 o
  waits : ∀ z ∈ zs, z ∉ pre → k.Awaits z.1.1 (.grouping z.2.2) w w' ∧ .grouping z.2.2 ∉ o.sites

namespace BodiesDone

variable {zs pre post : List ((Statement × Nat) × QName × GroupingId)}
  {z : (Statement × Nat) × QName × GroupingId}

theorem start (h : k.Registered s zs w w₁) : k.BodiesDone s stmt outer base zs [] [] w w₁ where
  part := ⟨⟨h.lists, h.tasks.trans (List.append_nil _).symm, List.nodup_nil, by simp [Outline.sites],
    by simp [Outline.sites]⟩, by simp, List.nodup_nil, .nil⟩
  done := by simp
  waits z hz _ := ⟨h.awaits z hz, List.not_mem_nil⟩

/-- One grouping more has its body. -/
theorem next {o' : Outline} (h : k.BodiesDone s stmt outer base zs pre o w w₁)
    (hzs : zs.map Prod.fst = stmt.allAt (.word .grouping)) (hnodup : (zs.map fun z => z.2.2).Nodup)
    (hz : z ∈ zs) (hpre : z.1.2 ∉ pre.map fun z => z.1.2) (hne : stmt.keyword ≠ .word .uses)
    (hpasses : k.prefixes.Passes stmt z.1.1 outer scope base)
    (hmade : o'.Made (.grouping z.2.2) gs w₁ w₂)
    (hout : k.Outlined (.grouping z.2.2) z.1.1 scope gs o' w₂.draft) :
    k.BodiesDone s stmt outer base zs (pre ++ [z])
      (o ++ ([z.1.2], .body (.grouping z.2.2)) :: o'.under z.1.2) w w₂ := by
  obtain ⟨hc, hkeyword⟩ := grouping_of_mem hzs hz
  obtain ⟨hawaits, hnew⟩ := h.waits z hz fun h => hpre (List.mem_map.2 ⟨z, h, rfl⟩)
  have huses : z.1.1.keyword ≠ .word .uses := by
    rw [hkeyword]
    decide
  have hsub := List.subset_append_left o (([z.1.2], .body (.grouping z.2.2)) :: o'.under z.1.2)
  refine ⟨(h.part.append_body hawaits hnew hmade hout hc hpre (fun h => absurd h hne) (.inl hkeyword)
    hpasses).weaken ?_, fun x hx => ?_, fun x hx hxpre => ?_⟩
  · rintro i (hi | rfl)
    · simp [hi]
    · simp
  · rcases List.mem_append.1 hx with hx | hx
    · exact ⟨hsub (h.done x hx).1, (h.done x hx).2.mono hsub⟩
    · cases List.mem_singleton.1 hx
      exact ⟨by simp, (hout.covers (by simp) hc huses).mono (List.subset_append_right _ _)⟩
  · -- the others still wait
    rw [List.mem_append, not_or, List.mem_singleton] at hxpre
    obtain ⟨hxawaits, hxnew⟩ := h.waits x hx hxpre.1
    have hother : x.2.2 ≠ z.2.2 := fun heq => hxpre.2 (List.inj_on_of_nodup_map hnodup hx hz heq)
    refine ⟨hxawaits.mono hmade.lists fun heq => hother (Site.grouping.inj heq), fun hmem => ?_⟩
    rw [Outline.sites_append] at hmem
    rcases List.mem_append.1 hmem with hmem | hmem
    · exact hxnew hmem
    · have hcons : Outline.sites (([z.1.2], .body (.grouping z.2.2)) :: o'.under z.1.2) =
          .grouping z.2.2 :: o'.sites := congrArg (_ :: ·) (Outline.sites_under _ _)
      rw [hcons, List.mem_cons] at hmem
      rcases hmem with heq | hmem
      · exact hother (Site.grouping.inj heq)
      · exact hmade.fresh _ hmem hxawaits.there

end BodiesDone

variable (scope enclosing) in
/-- The bodies of the groupings are declared one by one. -/
theorem gives_groupingBodies (hbody : k.Outlines body)
    (hne : stmt.keyword ≠ .word .uses) {zs : List ((Statement × Nat) × QName × GroupingId)}
    (hzs : zs.map Prod.fst = stmt.allAt (.word .grouping)) (h : k.Registered s zs w w₁)
    (hpasses : ∀ z ∈ zs, k.prefixes.Passes stmt z.1.1 outer scope base) :
    Gives (zs.forM fun z => located (k.trace z.1.1)
      (body (.grouping z.2.2) z.1.1 scope (enclosing ++ [.grouping z.2.2]))) w₁ fun _ w' => ∃ o,
        k.BodiesDone s stmt outer base zs zs o w w' := by
  refine gives_forM (I := fun pre w' => ∃ o, k.BodiesDone s stmt outer base zs pre o w w') zs
    ⟨[], .start h⟩ ?_
  rintro pre z post w₂ hsplit ⟨o, ho⟩
  have hz : z ∈ zs := by rw [hsplit]; simp
  have hpre : z.1.2 ∉ pre.map fun z => z.1.2 := by
    have hnumbers := Statement.nodup_allAt (.word .grouping) stmt
    rw [← hzs, List.map_map, hsplit, List.map_append, List.map_cons] at hnumbers
    exact fun h => (List.nodup_append.1 hnumbers).2.2 _ h _ List.mem_cons_self rfl
  have hawaits := (ho.waits z hz fun h => hpre (List.mem_map.2 ⟨z, h, rfl⟩)).1
  have huses : z.1.1.keyword ≠ .word .uses := by
    rw [(grouping_of_mem hzs hz).2]
    decide
  rw [gives_located]
  refine (hbody (.grouping z.2.2) z.1.1 scope _ w₂ hawaits.there huses).mono ?_
  rintro _ w₃ ⟨gs', o', hmade, hout⟩
  exact ⟨_, ho.next hzs h.nodup hz hpre hne (hpasses z hz) hmade hout⟩

/-- The groupings with their bodies, and the other statements, make up the outline of a body. -/
theorem Outlined.of_parts {zs : List ((Statement × Nat) × QName × GroupingId)} {o' : Outline}
    {w₃ : Workspace} (hs : w.draft.HasSite s) (hzs : zs.map Prod.fst = stmt.allAt (.word .grouping))
    (h : k.BodiesDone s stmt outer (groupingSites zs) zs zs o w w₂)
    (h' : k.Part s stmt outer (groupingSites zs) (fun i => ∃ c, stmt.children[i]? = some c ∧ IsPlain c) []
      o' w₂ w₃)
    (hrest : ∀ i c, stmt.children[i]? = some c → (IsPlain c → k.prefixes.Covers stmt i o') ∧
      ((∀ m, s ≠ .module m) → c.keyword ≠ .word .augment)) :
    (o ++ o').Made s (zs.map fun z => z.2.2) w w₃ ∧
      k.Outlined s stmt outer (zs.map fun z => z.2.2) (o ++ o') w₃.draft := by
  have hdisjoint : ∀ i ∈ zs.map fun z => z.1.2, ¬ ∃ c, stmt.children[i]? = some c ∧ IsPlain c := by
    rintro i hi ⟨c, hc, hplain⟩
    obtain ⟨z, hz, rfl⟩ := List.mem_map.1 hi
    obtain ⟨hc', hkeyword⟩ := grouping_of_mem hzs hz
    rw [hc'] at hc
    cases hc
    exact hplain.1 hkeyword
  have hpart := h.part.append h' hs hdisjoint
  rw [List.append_nil] at hpart
  have hsites : groupingSites zs ⊆ o ++ o' := by
    intro e he
    obtain ⟨z, hz, rfl⟩ := List.mem_map.1 he
    exact List.mem_append_left _ (h.done z hz).1
  refine ⟨hpart.made, fun e he => ?_, hpart.nodup, ?_, ?_, fun i c hc hne => ?_, fun hmodule c hc => ?_⟩
  · obtain ⟨i, p, hp, hi | ⟨c, hc, hplain⟩⟩ := hpart.heads e he
    · obtain ⟨z, hz, rfl⟩ := List.mem_map.1 hi
      obtain ⟨hc, hkeyword⟩ := grouping_of_mem hzs hz
      refine ⟨_, p, z.1.1, hp, hc, ?_⟩
      rw [hkeyword]
      decide
    · exact ⟨i, p, c, hp, hc, hplain.2⟩
  · rw [← hzs, List.forall₂_map_left_iff, List.forall₂_map_right_iff, List.forall₂_same]
    exact fun z hz => List.mem_append_left _ (h.done z hz).1
  · exact hpart.describes.mono (List.append_subset.2 ⟨hsites, List.Subset.refl _⟩)
      ((KeepsLists.refl _).listsMore s) fun t ht => ⟨hpart.made.there t ht, hpart.ne_site hs ht⟩
  · by_cases hkeyword : c.keyword = .word .grouping
    · have hmem : (c, i) ∈ zs.map Prod.fst := by
        rw [hzs]
        exact Statement.mem_allAt.2 ⟨hc, hkeyword⟩
      obtain ⟨z, hz, hzc⟩ := List.mem_map.1 hmem
      have hcovers := (h.done z hz).2
      rw [hzc] at hcovers
      exact hcovers.mono (List.subset_append_left _ _)
    · exact ((hrest i c hc).1 ⟨hkeyword, hne⟩).mono (List.subset_append_right _ _)
  · obtain ⟨i, hi⟩ := List.mem_iff_getElem?.1 hc
    exact (hrest i c hi).2 hmodule

/-- The statements of a body are declared one by one, after its groupings. -/
theorem gives_declareStatements_part (hbody : k.Outlines body) (hs : w.draft.HasSite s)
    (hne : stmt.keyword ≠ .word .uses) (hpasses : ∀ c : Statement, c.keyword ≠ .word .augment →
      k.prefixes.Passes stmt c outer scope base) :
    Gives (stmt.children.forM fun c =>
        located (k.trace c) (k.declareStatement body s c scope enclosing)) w
      fun _ w' => ∃ o,
        k.Part s stmt outer base (fun i => ∃ c, stmt.children[i]? = some c ∧ IsPlain c) [] o w w' ∧
        ∀ i c, stmt.children[i]? = some c → (IsPlain c → k.prefixes.Covers stmt i o) ∧
          ((∀ m, s ≠ .module m) → c.keyword ≠ .word .augment) := by
  -- the statements by their numbers
  have hchildren : stmt.children = stmt.children.zipIdx.map Prod.fst := (List.zipIdx_map_fst _ _).symm
  rw [hchildren, forM_map, ← hchildren]
  refine (gives_forM_part k s stmt outer base Prod.snd
    (I := fun i => ∃ c, stmt.children[i]? = some c ∧ IsPlain c)
    (P := fun z o _ => (IsPlain z.1 → k.prefixes.Covers stmt z.2 o) ∧
      ((∀ m, s ≠ .module m) → z.1.keyword ≠ .word .augment)) ?_ ?_ hs ?_).mono ?_
  · rw [List.zipIdx_map_snd]
    exact List.nodup_range'
  · rintro z o o' - - ⟨hcovers, hplain⟩ hsub -
    exact ⟨fun h => (hcovers h).mono hsub, hplain⟩
  · rintro ⟨c, i⟩ hz w₁ h₁
    have hc := List.mk_mem_zipIdx_iff_getElem?.1 hz
    rw [gives_located]
    refine (gives_declareStatement_part hbody (h₁.hasSite hs) hne hc (hpasses c)).mono ?_
    rintro _ w₂ ⟨o, ho, hcovers⟩
    refine ⟨o, ho.weaken ?_, hcovers⟩
    rintro j ⟨rfl, hplain⟩
    exact ⟨rfl, c, hc, hplain⟩
  · rintro _ w' ⟨o, ho, hrest⟩
    exact ⟨o, ho, fun i c hc => hrest (c, i) (List.mk_mem_zipIdx_iff_getElem?.2 hc)⟩

/-- Bodies are declared by outlines. -/
theorem outlines (k : Setting) (fuel : Nat) : k.Outlines (k.declareBodyUpTo fuel) := by
  induction fuel with
  | zero => exact fun _ _ _ _ _ _ _ => gives_throw _
  | succ fuel ih =>
    intro s stmt outer enclosing w hs hne
    rw [declareBodyUpTo, gives_bind, ← Statement.map_fst_allAt]
    refine (gives_declareGroupings_registered hs fun e he => (Statement.mem_allAt.1 he).2).mono ?_
    rintro _ w₁ ⟨zs, hzs, rfl, hregistered⟩
    dsimp only
    rw [gives_bind, forM_map, List.map_map]
    have hpasses : ∀ c : Statement, c.keyword ≠ .word .augment → k.prefixes.Passes stmt c outer
        ((zs.map Prod.snd).reverse ++ outer) (groupingSites zs) := by
      intro c hc
      have hsees : stmt.sees c = true := by simp [Statement.sees, hne, hc]
      exact hregistered.passes hzs hsees
    refine (gives_groupingBodies ((zs.map Prod.snd).reverse ++ outer) enclosing ih hne hzs hregistered
      fun z hz => hpasses z.1.1 ?_).mono ?_
    · rw [(grouping_of_mem hzs hz).2]
      decide
    rintro _ w₂ ⟨o, ho⟩
    refine (gives_declareStatements_part ih (ho.part.made.lists.hasSite hs) hne hpasses).mono ?_
    rintro _ w₃ ⟨o', ho', hrest⟩
    exact ⟨_, o ++ o', Outlined.of_parts hs hzs ho ho' hrest⟩

end Setting

end YangSchema
