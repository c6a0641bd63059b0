import YangSchema.Proofs.Declaration.Outcome
import YangSchema.Proofs.Declaration.Positions
import YangSchema.Proofs.Draft.Groupings

/-!
# Outlines

An outline says what became of the statements of a source: at which site the body at a position was
declared, and which task the uses at a position left.  `Outline.Made` is about the workspaces before and
after: the sites are new, and the tasks are those that were added.  `Setting.Describes` is about the
statements: the sites list the groupings of their bodies, and a task sees the groupings that the
statements around it define (`Setting.Asked`, `Scope.Finds`).

What the statements of one body leave is put together by their numbers (`Setting.Part`).
-/

namespace YangSchema

open Draft Edit Declare

/-- What became of the statement at a position. -/
inductive Mark where
  /-- Its body was declared at the site. -/
  | body (s : Site)
  /-- It is a `uses` and left the task. -/
  | uses (t : UsesTask)

namespace Mark

def site? : Mark → Option Site
  | body s => some s
  | uses _ => none

def task? : Mark → Option UsesTask
  | body _ => none
  | uses t => some t

end Mark

/-- What became of the statements at certain positions, in the order in which they were declared. -/
abbrev Outline := List (Position × Mark)

variable {w w' w₁ w₂ w₃ : Workspace} {d d' : Draft} {s t : Site} {gs gs' : List GroupingId}
  {stmt c : Statement} {i : Nat} {p : Position} {scope outer : Scope} {q : QName}

namespace Outline

variable {o o' o₁ all all' : Outline} {m : Mark}

/-- The outline seen from the statement whose substatement `i` it is about. -/
def under (i : Nat) (o : Outline) : Outline := o.map fun e => (i :: e.1, e.2)

/-- The sites of the bodies. -/
def sites (o : Outline) : List Site := o.filterMap fun e => e.2.site?

/-- The tasks of the uses. -/
def tasks (o : Outline) : List UsesTask := o.filterMap fun e => e.2.task?

theorem sites_append (o o' : Outline) : (o ++ o').sites = o.sites ++ o'.sites := List.filterMap_append

theorem tasks_append (o o' : Outline) : (o ++ o').tasks = o.tasks ++ o'.tasks := List.filterMap_append

@[simp] theorem sites_under (i : Nat) (o : Outline) : (o.under i).sites = o.sites := by
  rw [sites, under, List.filterMap_map]
  rfl

@[simp] theorem tasks_under (i : Nat) (o : Outline) : (o.under i).tasks = o.tasks := by
  rw [tasks, under, List.filterMap_map]
  rfl

theorem mem_sites : s ∈ o.sites ↔ ∃ p, (p, .body s) ∈ o := by
  rw [sites, List.mem_filterMap]
  constructor
  · rintro ⟨⟨p, m⟩, hmem, hm⟩
    cases m with
    | body s' =>
      cases hm
      exact ⟨p, hmem⟩
    | uses t => cases hm
  · rintro ⟨p, hmem⟩
    exact ⟨_, hmem, rfl⟩

theorem mem_tasks {t : UsesTask} : t ∈ o.tasks ↔ ∃ p, (p, .uses t) ∈ o := by
  rw [tasks, List.mem_filterMap]
  constructor
  · rintro ⟨⟨p, m⟩, hmem, hm⟩
    cases m with
    | body s => cases hm
    | uses t' =>
      cases hm
      exact ⟨p, hmem⟩
  · rintro ⟨p, hmem⟩
    exact ⟨_, hmem, rfl⟩

theorem mem_under : (p, m) ∈ o.under i ↔ ∃ p', p = i :: p' ∧ (p', m) ∈ o := by
  rw [under, List.mem_map]
  constructor
  · rintro ⟨⟨p', m'⟩, hmem, heq⟩
    cases heq
    exact ⟨p', rfl, hmem⟩
  · rintro ⟨p', rfl, hmem⟩
    exact ⟨_, hmem, rfl⟩

theorem map_fst_under (i : Nat) (o : Outline) :
    (o.under i).map Prod.fst = (o.map Prod.fst).map (i :: ·) := by
  rw [under, List.map_map, List.map_map]
  rfl

theorem nodup_under (h : (o.map Prod.fst).Nodup) : ((o.under i).map Prod.fst).Nodup := by
  rw [map_fst_under]
  exact h.map fun _ _ h => (List.cons.inj h).2

/-- Below the substatement, nothing stands at the substatement itself. -/
theorem notMem_under (h : ∀ e ∈ o, e.1 ≠ []) : [i] ∉ (o.under i).map Prod.fst := by
  rw [map_fst_under, List.mem_map]
  rintro ⟨p, hp, hnil⟩
  obtain ⟨e, he, rfl⟩ := List.mem_map.1 hp
  exact h e he (List.cons.inj hnil).2

/-! ## What was made -/

/-- The declarations that lead from `w` to `w'` made new sites and left tasks, which the outline lists;
besides, the site `s` lists the groupings `gs` now. -/
structure Made (o : Outline) (s : Site) (gs : List GroupingId) (w w' : Workspace) : Prop where
  lists : ListsMore s gs w.draft w'.draft
  tasks : w'.tasks.uses = w.tasks.uses ++ o.tasks
  nodup : o.sites.Nodup
  fresh : ∀ t ∈ o.sites, ¬ w.draft.HasSite t
  there : ∀ t ∈ o.sites, w'.draft.HasSite t

namespace Made

theorem nothing (h : w.draft.KeepsLists w'.draft) (ht : w'.tasks.uses = w.tasks.uses) :
    Made [] s [] w w' where
  lists := h.listsMore s
  tasks := ht.trans (List.append_nil _).symm
  nodup := List.nodup_nil
  fresh _ ht := absurd ht List.not_mem_nil
  there _ ht := absurd ht List.not_mem_nil

/-- A task is left, and nothing else happened. -/
theorem task {t : UsesTask} (h : w.draft.KeepsLists w'.draft)
    (ht : w'.tasks.uses = w.tasks.uses ++ [t]) : Made [(p, .uses t)] s [] w w' where
  lists := h.listsMore s
  tasks := ht
  nodup := List.nodup_nil
  fresh _ ht := absurd ht List.not_mem_nil
  there _ ht := absurd ht List.not_mem_nil

/-- The site of a body that was made before. -/
theorem adopt (h : Made o s gs w w') (hnew : ¬ w.draft.HasSite t) (hthere : w'.draft.HasSite t)
    (ht : t ∉ o.sites) : Made (o ++ [(p, .body t)]) s gs w w' where
  lists := h.lists
  tasks := by
    rw [tasks_append]
    exact h.tasks.trans (congrArg (w.tasks.uses ++ ·) (List.append_nil _).symm)
  nodup := by
    rw [sites_append]
    refine h.nodup.append (List.nodup_singleton t) fun x hx hx' => ht ?_
    cases List.mem_singleton.1 hx'
    exact hx
  fresh x hx := by
    rw [sites_append] at hx
    rcases List.mem_append.1 hx with hx | hx
    · exact h.fresh x hx
    · exact List.mem_singleton.1 hx ▸ hnew
  there x hx := by
    rw [sites_append] at hx
    rcases List.mem_append.1 hx with hx | hx
    · exact h.there x hx
    · exact List.mem_singleton.1 hx ▸ hthere

/-- Two steps, whatever sites they are about. -/
theorem append {gs₂ : List GroupingId} (h : Made o s gs w w₁) (h' : Made o' t gs' w₁ w₂)
    (hlists : ListsMore s gs₂ w.draft w₂.draft) : Made (o ++ o') s gs₂ w w₂ where
  lists := hlists
  tasks := by rw [h'.tasks, h.tasks, tasks_append, List.append_assoc]
  nodup := by
    rw [sites_append]
    exact h.nodup.append h'.nodup fun x hx hx' => h'.fresh x hx' (h.there x hx)
  fresh x hx := by
    rw [sites_append] at hx
    rcases List.mem_append.1 hx with hx | hx
    · exact h.fresh x hx
    · exact fun hx' => h'.fresh x hx (h.lists.hasSite hx')
  there x hx := by
    rw [sites_append] at hx
    rcases List.mem_append.1 hx with hx | hx
    · exact h'.lists.hasSite (h.there x hx)
    · exact h'.there x hx

theorem trans (h : Made o s gs w w₁) (h' : Made o' s gs' w₁ w₂) : Made (o ++ o') s (gs ++ gs') w w₂ :=
  h.append h' (h.lists.trans h'.lists)

/-- What a new site lists is no matter at the start. -/
theorem trans_new (h : Made o s gs w w₁) (h' : Made o' t gs' w₁ w₂) (ht : ¬ w.draft.HasSite t) :
    Made (o ++ o') s gs w w₂ :=
  h.append h' (h.lists.trans_new h'.lists ht)

theorem under (h : Made o s gs w w') (i : Nat) : Made (o.under i) s gs w w' where
  lists := h.lists
  tasks := by rw [tasks_under, h.tasks]
  nodup := by rw [sites_under]; exact h.nodup
  fresh := by rw [sites_under]; exact h.fresh
  there := by rw [sites_under]; exact h.there

end Made

end Outline

/-! ## What is seen -/

/-- In the scope the name means the grouping at the position, or without one what it means further out. -/
def Scope.Finds (scope outer : Scope) (q : QName) (o : Outline) : Option Position → Prop
  | some r => ∃ g, (r, .body (.grouping g)) ∈ o ∧ scope.find? q = some g
  | none => scope.find? q = outer.find? q

theorem Scope.Finds.mono {o o' : Outline} {r : Option Position} (h : scope.Finds outer q o r)
    (ho : o ⊆ o') : scope.Finds outer q o' r := by
  cases r with
  | none => exact h
  | some r =>
    obtain ⟨g, hg, hfind⟩ := h
    exact ⟨g, ho hg, hfind⟩

/-- What is not found further in is looked for in the scope around. -/
theorem Scope.Finds.or {inner : Scope} {o o' : Outline} {r r' : Option Position}
    (h : inner.Finds scope q o r) (h' : scope.Finds outer q o' r') (ho : o.under i ⊆ o') :
    inner.Finds outer q o' ((r.map (i :: ·)).or r') := by
  cases r with
  | some r =>
    obtain ⟨g, hg, hfind⟩ := h
    exact ⟨g, ho (Outline.mem_under.2 ⟨r, rfl, hg⟩), hfind⟩
  | none =>
    have h : inner.find? q = scope.find? q := h
    cases r' with
    | some r' =>
      obtain ⟨g, hg, hfind⟩ := h'
      exact ⟨g, hg, h.trans hfind⟩
    | none => exact h.trans h'

/-- Whoever declares the substatement `c` of `stmt` passes on a scope that shows what `stmt` shows. -/
def Prefixes.Passes (b : Prefixes) (stmt c : Statement) (outer scope : Scope) (o : Outline) : Prop :=
  ∀ q, scope.Finds outer q o ((b.shown? q stmt c).map ([·]))

/-- A substatement that is shown nothing is passed the scope as it is. -/
theorem Prefixes.passes_of_not_sees {b : Prefixes} {o : Outline} (h : stmt.sees c = false) :
    b.Passes stmt c scope scope o := by
  intro q
  rw [shown?, h]
  rfl

/-! ## What is declared where -/

/-- What the site of the body of a statement is. -/
def Prefixes.Houses (b : Prefixes) (d : Draft) (c : Statement) : Site → Prop
  | .module _ => False
  | .grouping g => c.keyword = .word .grouping ∧ ∃ text, c.argument = some text ∧
    (d.grouping g).facts.name = b.ownName text
  | .node i => (c.nodeKind? b).isSome ∧ ∃ text, c.nodeName = .ok text ∧
    (d.node i).name = b.ownName text
  | .augment _ => c.keyword = .word .augment

/-- The site lists the groupings that the statement at the position `p` defines, in their order. -/
def Statement.ListedAt (c : Statement) (d : Draft) (o : Outline) (p : Position) (t : Site) : Prop :=
  List.Forall₂ (fun e g => (p ++ [e.2], Mark.body (.grouping g)) ∈ o) (c.allAt (.word .grouping))
    (d.groupingsAt t)

/-- Every uses in the substatement `i` of `stmt` is in the outline. -/
def Prefixes.Covers (b : Prefixes) (stmt : Statement) (i : Nat) (o : Outline) : Prop :=
  ∀ p u, b.Inside stmt (i :: p) u → u.keyword = .word .uses → ∃ t, (i :: p, .uses t) ∈ o

/-- The body of the statement at the position `p` was declared at the site. -/
def Prefixes.Housed (b : Prefixes) (d : Draft) (stmt : Statement) (o : Outline) (p : Position)
    (t : Site) : Prop :=
  ∃ c, b.Inside stmt p c ∧ b.Houses d c t ∧ c.ListedAt d o p t

namespace Setting

variable {k : Setting} {o o' o₁ all all' base : Outline}

/-- The `uses` at the position `p` below `stmt` left the task; `s` is the site of the body of `stmt`, and
`outer` the scope around it. -/
structure Asked (k : Setting) (s : Site) (stmt : Statement) (outer : Scope) (o : Outline) (p : Position)
    (t : UsesTask) : Prop where
  statement : ∃ u text, k.prefixes.Inside stmt p u ∧ u.keyword = .word .uses ∧
    u.argument = some text ∧ k.prefixes.qname text = .ok t.grouping ∧ t.trace = k.trace u
  home : t.home = k.own
  site : ∃ p' i, p = p' ++ [i] ∧ (p' = [] ∧ t.site = s ∧ stmt.keyword ≠ .word .uses ∨
    (p', .body t.site) ∈ o)
  scope : ∀ q, t.scope.Finds outer q o (k.prefixes.nearest? q stmt p)

/-- The outline `o` is right about the statements below `stmt`; it refers to what is in `all`. -/
structure Describes (k : Setting) (s : Site) (stmt : Statement) (outer : Scope) (all : Outline)
    (d : Draft) (o : Outline) : Prop where
  bodies : ∀ p t, (p, .body t) ∈ o → k.prefixes.Housed d stmt all p t
  uses : ∀ p t, (p, .uses t) ∈ o → k.Asked s stmt outer all p t

end Setting

namespace Prefixes

variable {b : Prefixes} {o o' all all' : Outline}

theorem Houses.mono (h : b.Houses d c t) (hd : d.KeepsNames d') (ht : d.HasSite t) : b.Houses d' c t := by
  cases t with
  | module i => exact h
  | grouping g =>
    obtain ⟨hkeyword, text, htext, hname⟩ := h
    exact ⟨hkeyword, text, htext, (hd.grouping g ht).trans hname⟩
  | node i =>
    obtain ⟨hkind, text, htext, hname⟩ := h
    exact ⟨hkind, text, htext, (hd.node i ht).trans hname⟩
  | augment a => exact h

theorem Covers.mono (h : b.Covers stmt i o) (ho : o ⊆ o') : b.Covers stmt i o' := by
  intro p u hin hu
  obtain ⟨t, ht⟩ := h p u hin hu
  exact ⟨t, ho ht⟩

/-- A statement that has no body and is no uses has none in it. -/
theorem covers_of_not_opens (hc : stmt.children[i]? = some c) (h : ¬ b.Opens c) :
    b.Covers stmt i o := by
  intro p u hin hu
  cases hin with
  | direct hc' _ =>
    rw [hc] at hc'
    cases hc'
    exact absurd (.inr (.inl hu)) h
  | deeper hc' _ hopens _ =>
    rw [hc] at hc'
    cases hc'
    exact absurd hopens h

/-- A site that lists no more stays right, also in a larger outline. -/
theorem Housed.mono (h : b.Housed d stmt all p t) (hall : all ⊆ all') (hd : ListsMore s gs d d')
    (ht : d.HasSite t) (hne : t ≠ s) : b.Housed d' stmt all' p t := by
  obtain ⟨c, hin, hhouses, hlisted⟩ := h
  refine ⟨c, hin, hhouses.mono hd.names ht, ?_⟩
  unfold Statement.ListedAt
  rw [hd.at_other ht hne]
  exact hlisted.imp fun _ _ h => hall h

/-- Seen from the statement around. -/
theorem Housed.under (h : b.Housed d c o p t) (hc : stmt.children[i]? = some c)
    (hs : stmt.keyword = .word .uses → c.keyword = .word .augment) (hopens : b.Opens c)
    (ho : o.under i ⊆ all) : b.Housed d stmt all (i :: p) t := by
  obtain ⟨e, hin, hhouses, hlisted⟩ := h
  refine ⟨e, .deeper hc hs hopens hin, hhouses, hlisted.imp fun x g hg => ?_⟩
  exact ho (Outline.mem_under.2 ⟨_, rfl, hg⟩)

end Prefixes

namespace Setting

variable {k : Setting} {o o' o₁ all all' base : Outline}

theorem Asked.mono {t : UsesTask} (h : k.Asked s stmt outer all p t) (hall : all ⊆ all') :
    k.Asked s stmt outer all' p t where
  statement := h.statement
  home := h.home
  site := by
    obtain ⟨p', i, hp, hsite⟩ := h.site
    exact ⟨p', i, hp, hsite.imp_right fun hmem => hall hmem⟩
  scope q := (h.scope q).mono hall

theorem Asked.under {t : UsesTask} {s' : Site} (h : k.Asked s' c scope o p t)
    (hc : stmt.children[i]? = some c)
    (hs : stmt.keyword = .word .uses → c.keyword = .word .augment) (hopens : k.prefixes.Opens c)
    (hpasses : k.prefixes.Passes stmt c outer scope all)
    (hbody : c.keyword ≠ .word .uses → ([i], .body s') ∈ all) (ho : o.under i ⊆ all) :
    k.Asked s stmt outer all (i :: p) t where
  statement := by
    obtain ⟨u, text, hin, hu⟩ := h.statement
    exact ⟨u, text, .deeper hc hs hopens hin, hu⟩
  home := h.home
  site := by
    obtain ⟨p', j, rfl, ⟨rfl, hsite, hne⟩ | hmem⟩ := h.site
    · exact ⟨[i], j, rfl, .inr (hsite ▸ hbody hne)⟩
    · exact ⟨i :: p', j, rfl, .inr (ho (Outline.mem_under.2 ⟨p', rfl, hmem⟩))⟩
  scope q := by
    rw [Prefixes.nearest?_cons hc]
    exact (h.scope q).or (hpasses q) ho

namespace Describes

theorem nil : k.Describes s stmt outer all d [] :=
  ⟨fun _ _ h => absurd h List.not_mem_nil, fun _ _ h => absurd h List.not_mem_nil⟩

theorem mono {s' : Site} (h : k.Describes s stmt outer all d o) (hall : all ⊆ all')
    (hd : ListsMore s' gs d d') (ho : ∀ t ∈ o.sites, d.HasSite t ∧ t ≠ s') :
    k.Describes s stmt outer all' d' o where
  bodies p t hmem := by
    obtain ⟨ht, hne⟩ := ho t (Outline.mem_sites.2 ⟨p, hmem⟩)
    exact (h.bodies p t hmem).mono hall hd ht hne
  uses p t hmem := (h.uses p t hmem).mono hall

theorem append (h : k.Describes s stmt outer all d o) (h' : k.Describes s stmt outer all d o') :
    k.Describes s stmt outer all d (o ++ o') where
  bodies p t hmem := (List.mem_append.1 hmem).elim (h.bodies p t) (h'.bodies p t)
  uses p t hmem := (List.mem_append.1 hmem).elim (h.uses p t) (h'.uses p t)

theorem cons {e : Position × Mark} (h : k.Describes s stmt outer all d [e])
    (h' : k.Describes s stmt outer all d o') : k.Describes s stmt outer all d (e :: o') :=
  h.append h'

theorem body (h : k.prefixes.Housed d stmt all p t) :
    k.Describes s stmt outer all d [(p, .body t)] where
  bodies _ _ hmem := by
    cases List.mem_singleton.1 hmem
    exact h
  uses _ _ hmem := by cases List.mem_singleton.1 hmem

theorem task {t : UsesTask} (h : k.Asked s stmt outer all p t) :
    k.Describes s stmt outer all d [(p, .uses t)] where
  bodies _ _ hmem := by cases List.mem_singleton.1 hmem
  uses _ _ hmem := by
    cases List.mem_singleton.1 hmem
    exact h

/-- What holds below the substatement `c` is so seen from the statement around it. -/
theorem under {s' : Site} (h : k.Describes s' c scope o d o) (hc : stmt.children[i]? = some c)
    (hs : stmt.keyword = .word .uses → c.keyword = .word .augment) (hopens : k.prefixes.Opens c)
    (hpasses : k.prefixes.Passes stmt c outer scope all)
    (hbody : c.keyword ≠ .word .uses → ([i], .body s') ∈ all) (ho : o.under i ⊆ all) :
    k.Describes s stmt outer all d (o.under i) where
  bodies p t hmem := by
    obtain ⟨p', rfl, hmem'⟩ := Outline.mem_under.1 hmem
    exact (h.bodies p' t hmem').under hc hs hopens ho
  uses p t hmem := by
    obtain ⟨p', rfl, hmem'⟩ := Outline.mem_under.1 hmem
    exact (h.uses p' t hmem').under hc hs hopens hpasses hbody ho

end Describes

/-! ## What the statements of a body leave -/

/-- Statements of the body of `stmt` with numbers in `I` were declared from `w` to `w'` and left the
outline `o`; there was the outline `base` before. -/
structure Part (k : Setting) (s : Site) (stmt : Statement) (outer : Scope) (base : Outline)
    (I : Nat → Prop) (gs : List GroupingId) (o : Outline) (w w' : Workspace) : Prop where
  made : o.Made s gs w w'
  heads : ∀ e ∈ o, ∃ i p, e.1 = i :: p ∧ I i
  nodup : (o.map Prod.fst).Nodup
  describes : k.Describes s stmt outer (base ++ o) w'.draft o

namespace Part

variable {I J : Nat → Prop}

theorem nothing (h : w.draft.KeepsLists w'.draft) (ht : w'.tasks.uses = w.tasks.uses) :
    k.Part s stmt outer base I [] [] w w' where
  made := .nothing h ht
  heads _ he := absurd he List.not_mem_nil
  nodup := List.nodup_nil
  describes := .nil

theorem weaken (h : k.Part s stmt outer base I gs o w w') (hI : ∀ i, I i → J i) :
    k.Part s stmt outer base J gs o w w' :=
  { h with
    heads := fun e he => by
      obtain ⟨i, p, hp, hi⟩ := h.heads e he
      exact ⟨i, p, hp, hI i hi⟩ }

theorem ne_site (h : k.Part s stmt outer base I gs o w w') (hs : w.draft.HasSite s) (ht : t ∈ o.sites) :
    t ≠ s :=
  fun heq => h.made.fresh t ht (heq ▸ hs)

/-- Outlines with different heads have no position in common. -/
theorem disjoint (h : ∀ e ∈ o, ∃ i p, e.1 = i :: p ∧ I i) (h' : ∀ e ∈ o', ∃ i p, e.1 = i :: p ∧ J i)
    (hIJ : ∀ i, I i → ¬ J i) : (o.map Prod.fst).Disjoint (o'.map Prod.fst) := by
  intro p hp hp'
  obtain ⟨e, he, rfl⟩ := List.mem_map.1 hp
  obtain ⟨e', he', heq⟩ := List.mem_map.1 hp'
  obtain ⟨i, r, hi, hI⟩ := h e he
  obtain ⟨j, r', hj, hJ⟩ := h' e' he'
  rw [hi, hj] at heq
  obtain ⟨rfl, -⟩ := List.cons.inj heq
  exact hIJ _ hI hJ

theorem append (h : k.Part s stmt outer base I gs o w w₁) (h' : k.Part s stmt outer base J gs' o' w₁ w₂)
    (hs : w.draft.HasSite s) (hIJ : ∀ i, I i → ¬ J i) :
    k.Part s stmt outer base (fun i => I i ∨ J i) (gs ++ gs') (o ++ o') w w₂ where
  made := h.made.trans h'.made
  heads e he := by
    rcases List.mem_append.1 he with he | he
    · obtain ⟨i, p, hp, hi⟩ := h.heads e he
      exact ⟨i, p, hp, .inl hi⟩
    · obtain ⟨i, p, hp, hi⟩ := h'.heads e he
      exact ⟨i, p, hp, .inr hi⟩
  nodup := by
    rw [List.map_append]
    exact h.nodup.append h'.nodup (disjoint h.heads h'.heads hIJ)
  describes := by
    refine .append (h.describes.mono ?_ h'.made.lists fun t ht => ⟨h.made.there t ht, h.ne_site hs ht⟩)
      (h'.describes.mono ?_ ((KeepsLists.refl _).listsMore s) fun t ht => ⟨h'.made.there t ht, ?_⟩)
    · exact List.append_subset.2 ⟨List.subset_append_left _ _,
        fun _ hx => List.mem_append_right _ (List.mem_append_left _ hx)⟩
    · exact List.append_subset.2 ⟨List.subset_append_left _ _,
        fun _ hx => List.mem_append_right _ (List.mem_append_right _ hx)⟩
    · exact h'.ne_site (h.made.lists.hasSite hs) ht

end Part

end Setting

end YangSchema
