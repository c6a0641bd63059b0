import YangSchema.Proofs.Declaration.Charts
import YangSchema.Proofs.SourceOrder
import YangSchema.Proofs.UsesOrder

/-!
# Groupings at the top

A uses that no body in its source hides finds its grouping in one of two ways.  If the top of the source
shows it a definition, then that is in its scope, and the last definition of the source counts.  Otherwise
the module that the name belongs to is asked, and the first grouping that it lists counts.  So uses of one
name may mean different groupings if the name is defined more than once (`repeated_name_two_groupings`),
but not if it is defined only once at the tops of the sources (`buildSchema_topGroupings`).
-/

namespace YangSchema

open Draft Edit Declare

namespace Prefixes

variable {b : Prefixes} {q : QName} {root c : Statement} {i : Nat} {p : Position}

/-- No body in the source that is around the position defines the name. -/
def Unshadowed (b : Prefixes) (q : QName) (root : Statement) (p : Position) : Prop :=
  ∀ p₁ i p₂ c, p = p₁ ++ i :: p₂ → p₁ ≠ [] → root.at? p₁ = some c → c.keyword ≠ .word .uses →
    ∀ n, ¬ b.Defines q c n

/-- What is found in spite of all bodies is at the top. -/
theorem Unshadowed.nearest? (h : b.Unshadowed q root p) {r : Position}
    (hr : b.nearest? q root p = some r) : ∃ n, r = [n] ∧ b.definition? q root = some n := by
  obtain ⟨p₁, i, p₂, c, e, n, hp, hat, -, hn, rfl, -⟩ := nearest?_eq_some.1 hr
  unfold shown? at hn
  split at hn
  · next hsees =>
    have huses : c.keyword ≠ .word .uses := by
      intro hk
      simp [Statement.sees, hk] at hsees
    by_cases hnil : p₁ = []
    · subst hnil
      cases hat
      exact ⟨n, rfl, hn⟩
    · exact absurd (definition?_eq_some.1 hn).1 (h p₁ i p₂ c hp hnil hat huses n)
  · cases hn

/-- At the top of a source nothing is hidden. -/
theorem unshadowed_singleton : b.Unshadowed q root [i] := by
  intro p₁ j p₂ c hp hne
  cases p₁ with
  | nil => exact absurd rfl hne
  | cons _ p₁ =>
    have := congrArg List.length hp
    simp at this

end Prefixes

namespace Setting

variable {k : Setting} {root : Statement} {gs : List GroupingId} {o : Outline} {d : Draft}
  {p r : Position} {t : UsesTask} {g : GroupingId}

/-- What is declared at the top of a source is among its groupings. -/
theorem Drawn.mem_tops (h : k.Drawn root gs o d) {n : Nat} (hg : ([n], .body (.grouping g)) ∈ o) :
    g ∈ gs := by
  obtain ⟨c, hin, ⟨hkeyword, -⟩, -⟩ := h.describes.bodies _ _ hg
  have hc : root.children[n]? = some c := by
    cases hin with
    | direct hc _ => exact hc
    | deeper _ _ _ hin => exact absurd rfl hin.ne_nil
  obtain ⟨g', hg', hmem⟩ :=
    exists_of_forall₂_right h.listed.flip (Statement.mem_allAt.2 ⟨hc, hkeyword⟩)
  have hsame := List.inj_on_of_nodup_map h.nodup hg hmem rfl
  cases hsame
  exact hg'

/-- How the grouping of a uses is found, by the statements around the uses. -/
theorem Drawn.resolve (h : k.Drawn root gs o d) (ht : (p, .uses t) ∈ o) :
    (∀ r, k.prefixes.nearest? t.grouping root p = some r →
      ∃ g, (r, .body (.grouping g)) ∈ o ∧ t.resolve d = some g) ∧
    (k.prefixes.nearest? t.grouping root p = none →
      t.resolve d = d.findModuleGrouping t.grouping) := by
  have hfinds := (h.describes.uses p t ht).scope t.grouping
  refine ⟨fun r hr => ?_, fun hnone => ?_⟩
  · rw [hr] at hfinds
    obtain ⟨g, hg, hfind⟩ := hfinds
    exact ⟨g, hg, by rw [UsesTask.resolve, hfind, Option.some_or]⟩
  · rw [hnone] at hfinds
    have hnil : t.scope.find? t.grouping = none := hfinds
    rw [UsesTask.resolve, hnil, Option.none_or]

end Setting

/-- The names that the sources of the module define groupings by at their tops. -/
def Atlas.topNames (a : Atlas) : List QName := a.charts.flatMap Chart.topNames

/-- In the chart the uses stands where no body in the source hides its grouping. -/
structure Chart.Exposes (c : Chart) (p : Position) (t : UsesTask) : Prop where
  uses : (p, .uses t) ∈ c.outline
  unshadowed : c.setting.prefixes.Unshadowed t.grouping c.source.root p

/-- A value that is there at most once is that of one element. -/
theorem eq_of_count_map_le_one {α β : Type} [BEq β] [LawfulBEq β] {f : α → β} {l : List α} {x y : α}
    (hx : x ∈ l) (hy : y ∈ l) (hxy : f x = f y) (hcount : (l.map f).count (f x) ≤ 1) : x = y := by
  induction l with
  | nil => cases hx
  | cons z l ih =>
    rw [List.map_cons, List.count_cons] at hcount
    -- where one of them stands in front, the other is not behind it
    have hback : f z = f x → ∀ v ∈ l, f v ≠ f x := by
      intro hz v hv hvx
      have hpos : 0 < (l.map f).count (f x) := List.count_pos_iff.2 (hvx ▸ List.mem_map_of_mem hv)
      rw [hz, beq_self_eq_true, if_pos rfl] at hcount
      omega
    rcases List.mem_cons.1 hx with hxz | hxl
    · rcases List.mem_cons.1 hy with hyz | hyl
      · rw [hxz, hyz]
      · exact absurd hxy.symm (hback (by rw [hxz]) y hyl)
    · rcases List.mem_cons.1 hy with hyz | hyl
      · exact absurd rfl (hback (by rw [hxy, hyz]) x hxl)
      · exact ih hxl hyl ((Nat.le_add_right _ _).trans hcount)

namespace Registry

variable {r : Registry} {order : List Source} {modules : List ModuleId} {w : Workspace} {as : List Atlas}
  {a : Atlas} {c : Chart} {p : Position} {t t' : UsesTask} {g : GroupingId} {d : Draft}

theorem Charted.names_eq (h : r.Charted a d) :
    (d.groupingsAt (.module a.target)).map (fun g => (d.grouping g).facts.name) = a.topNames := by
  rw [h.groupings, List.map_flatMap]
  exact List.flatMap_congr fun c hc => (h.right c hc).names_eq

namespace Mapped

/-- The groupings at the tops of all sources. -/
def tops (as : List Atlas) : List GroupingId := as.flatMap fun a => a.charts.flatMap Chart.tops

theorem names_eq (h : r.Mapped order modules w as) :
    (tops as).map (fun g => (w.draft.grouping g).facts.name) = as.flatMap Atlas.topNames := by
  rw [tops, List.map_flatMap]
  refine List.flatMap_congr fun a ha => ?_
  rw [← (h.charted a ha).groupings, (h.charted a ha).names_eq]

/-- The modules list the groupings by these names. -/
theorem topNames_eq (h : r.Mapped order modules w as) : as.flatMap Atlas.topNames =
    modules.flatMap fun m => (w.draft.groupingsAt (.module m)).map fun g =>
      (w.draft.grouping g).facts.name := by
  rw [← h.modules, List.flatMap_map]
  exact List.flatMap_congr fun a ha => (h.charted a ha).names_eq.symm

/-- A uses that nothing hides means a grouping at the top of a source that bears its name. -/
theorem mem_tops (h : r.Mapped order modules w as) (hw : w.Declared modules) (ha : a ∈ as)
    (hc : c ∈ a.charts) (ht : c.Exposes p t) (hg : t.resolve w.draft = some g) :
    g ∈ tops as ∧ (w.draft.grouping g).facts.name = t.grouping := by
  have hright := (h.charted a ha).right c hc
  have hresolve := hright.resolve ht.uses
  cases hr : c.setting.prefixes.nearest? t.grouping c.source.root p with
  | some r =>
    obtain ⟨g', hg', hfound⟩ := hresolve.1 r hr
    rw [hg] at hfound
    cases hfound
    refine ⟨?_, hright.name_eq hr hg'⟩
    obtain ⟨n, rfl, -⟩ := ht.unshadowed.nearest? hr
    exact List.mem_flatMap.2 ⟨a, ha, List.mem_flatMap.2 ⟨c, hc, hright.mem_tops hg'⟩⟩
  | none =>
    have hfound := hresolve.2 hr
    rw [hg] at hfound
    obtain ⟨m, hm, hfind⟩ := Option.bind_eq_some_iff.1 hfound.symm
    have hname := List.find?_some hfind
    obtain ⟨a', ha', rfl⟩ : ∃ a' ∈ as, a'.target = m := by
      rw [← List.mem_map, h.modules, hw.mem_modules]
      exact hasSite_of_moduleOf? hm
    refine ⟨?_, eq_of_beq hname⟩
    have hmem : g ∈ w.draft.groupingsAt (.module a'.target) := List.mem_of_find?_eq_some hfind
    rw [(h.charted a' ha').groupings] at hmem
    exact List.mem_flatMap.2 ⟨a', ha', hmem⟩

/-- A uses at the top of a module is hidden by nothing. -/
theorem exists_exposes (h : r.Mapped order modules w as) (ht : t ∈ w.tasks.uses) {m : ModuleId}
    (hsite : t.site = .module m) : ∃ a ∈ as, ∃ c ∈ a.charts, ∃ p, c.Exposes p t := by
  rw [h.tasks] at ht
  obtain ⟨a, ha, ht⟩ := List.mem_flatMap.1 ht
  obtain ⟨c, hc, ht⟩ := List.mem_flatMap.1 ht
  obtain ⟨p, hp⟩ := Outline.mem_tasks.1 ht
  have hright := (h.charted a ha).right c hc
  obtain ⟨p', i, rfl, ⟨rfl, -⟩ | hbody⟩ := (hright.describes.uses p t hp).site
  · exact ⟨a, ha, c, hc, [i], hp, Prefixes.unshadowed_singleton⟩
  · exact absurd hsite (hright.ne_module (Outline.mem_sites.2 ⟨p', hbody⟩) m)

end Mapped

end Registry

/-- The sources of a registry are no uses. -/
theorem root_ne_uses_of_collectSources {sources : List ParsedSource} {r : Registry}
    (hr : collectSources sources = .ok r) {s : Source} (hs : s ∈ r.sources) :
    s.root.keyword ≠ .word .uses := by
  obtain ⟨p, -, root, -, hread⟩ := exists_of_collectSources hr hs
  obtain ⟨rfl, hkeyword, -⟩ := Source.exists_of_analyze hread
  rcases hkeyword with ⟨hkeyword, -⟩ | ⟨hkeyword, -⟩ <;>
  · rw [hkeyword]
    decide

/-- What is declared in a build is what the declaration of its sources comes to. -/
theorem Builds.declared_eq {sources : List ParsedSource} {config : BuildConfig}
    {modules modules' : List ModuleId} {w w' : Workspace} {schema : Schema} {r : Registry}
    {order : List Source} (h : Builds sources config modules' w' schema)
    (hr : collectSources sources = .ok r) (hlink : r.link = .ok order)
    (hdeclared : (declareModules r config order).run {} = .ok (modules, w)) :
    modules' = modules ∧ w' = w := by
  obtain ⟨r', order', hr', hlink', hdeclared'⟩ := h.declared
  obtain rfl : r = r' := Except.ok.inj (hr.symm.trans hr')
  obtain rfl : order = order' := Except.ok.inj (hlink.symm.trans hlink')
  exact Prod.mk.inj (Except.ok.inj (hdeclared'.symm.trans hdeclared))

theorem Builds.exists_mapped {sources : List ParsedSource} {config : BuildConfig}
    {modules : List ModuleId} {w : Workspace} {schema : Schema}
    (h : Builds sources config modules w schema) : ∃ r order as, collectSources sources = .ok r ∧
      r.link = .ok order ∧ r.Mapped order modules w as := by
  obtain ⟨r, order, hr, hlink, hdeclared⟩ := h.declared
  obtain ⟨as, has⟩ := Registry.gives_declareModules_mapped
    (fun s hs => root_ne_uses_of_collectSources hr hs) config
    (fun s hs => Registry.mem_of_link hlink hs) modules w hdeclared
  exact ⟨r, order, as, hr, hlink, has⟩

/-- In every build that succeeds each uses means one grouping throughout the inference.  It is the nearest
definition around the uses in its source; where there is none it is the first grouping of the name that
the module lists.  Of a name that the tops of all sources define at most once, any two uses that no body
in their sources hides mean the same grouping. -/
theorem buildSchema_topGroupings {sources : List ParsedSource} {config : BuildConfig} {schema : Schema}
    (h : buildSchema sources config = .ok schema) :
    ∃ r order modules w as, collectSources sources = .ok r ∧ r.link = .ok order ∧
      Builds sources config modules w schema ∧ r.Mapped order modules w as ∧
      (∀ t ∈ w.tasks.uses, ∃ g, ∀ ms S, Run (w.tasks.stage w.draft) ms S →
        t.resolve S.draft = some g) ∧
      (∀ a ∈ as, ∀ c ∈ a.charts, ∀ p t, (p, .uses t) ∈ c.outline →
        (∀ x, c.setting.prefixes.nearest? t.grouping c.source.root p = some x →
          ∃ g, (x, .body (.grouping g)) ∈ c.outline ∧ t.resolve w.draft = some g) ∧
        (c.setting.prefixes.nearest? t.grouping c.source.root p = none →
          t.resolve w.draft = w.draft.findModuleGrouping t.grouping)) ∧
      ∀ a ∈ as, ∀ c ∈ a.charts, ∀ p t, c.Exposes p t →
        ∀ a' ∈ as, ∀ c' ∈ a'.charts, ∀ p' t', c'.Exposes p' t' → t'.grouping = t.grouping →
          (as.flatMap Atlas.topNames).count t.grouping ≤ 1 →
            t'.resolve w.draft = t.resolve w.draft := by
  obtain ⟨modules, w, d, d', hcourse⟩ := exists_course h
  obtain ⟨r, order, as, hr, hlink, has⟩ := hcourse.exists_mapped
  have hmem : ∀ a ∈ as, ∀ c ∈ a.charts, ∀ p t, c.Exposes p t → t ∈ w.tasks.uses := by
    intro a ha c hc p t ht
    rw [has.tasks]
    exact List.mem_flatMap.2 ⟨a, ha, List.mem_flatMap.2 ⟨c, hc, Outline.mem_tasks.2 ⟨p, ht.uses⟩⟩⟩
  refine ⟨r, order, modules, w, as, hr, hlink, hcourse.toBuilds, has, fun t ht => ?_, ?_, ?_⟩
  · obtain ⟨g, hg⟩ := hcourse.exists_resolve ht
    refine ⟨g, fun ms S hrun => ?_⟩
    rw [(hrun.from (hcourse.sane.from hcourse.acyclic)).follows.resolve, hg]
  · exact fun a ha c hc p t ht => ((has.charted a ha).right c hc).resolve ht
  · intro a ha c hc p t ht a' ha' c' hc' p' t' ht' hname hcount
    obtain ⟨g, hg⟩ := hcourse.exists_resolve (hmem a ha c hc p t ht)
    obtain ⟨g', hg'⟩ := hcourse.exists_resolve (hmem a' ha' c' hc' p' t' ht')
    obtain ⟨htop, hq⟩ := has.mem_tops hcourse.sane ha hc ht hg
    obtain ⟨htop', hq'⟩ := has.mem_tops hcourse.sane ha' hc' ht' hg'
    rw [← has.names_eq, ← hq] at hcount
    have hsame := eq_of_count_map_le_one (f := fun g => (w.draft.grouping g).facts.name) htop htop'
      (by rw [hq, hq', hname]) hcount
    rw [hg, hg', hsame]

/-! ## Two modules -/

/-- A module that has some groupings at its top and uses `g`, and one that imports it and uses `g`
of it. -/
def usedTwice (groupings : List Statement) : List ParsedSource := [
  { label := "m.yang"
    root := .ok {
      keyword := .word .moduleWord
      argument := some "m"
      children := [
        { keyword := .word .namespaceWord, argument := some "urn:m" },
        { keyword := .word .prefixWord, argument := some "m" }] ++ groupings ++ [
        { keyword := .word .uses, argument := some "g" }] } },
  { label := "n.yang"
    root := .ok {
      keyword := .word .moduleWord
      argument := some "n"
      children := [
        { keyword := .word .namespaceWord, argument := some "urn:n" },
        { keyword := .word .prefixWord, argument := some "n" },
        { keyword := .word .importWord, argument := some "m"
          children := [{ keyword := .word .prefixWord, argument := some "m" }] },
        { keyword := .word .uses, argument := some "m:g" }] } }]

/-- A grouping `g` with a leaf of the given name. -/
def groupingG (leaf : String) : Statement where
  keyword := .word .grouping
  argument := some "g"
  children := [{ keyword := .word .leaf, argument := some leaf }]

/-- If `g` is defined once, both uses mean it. -/
theorem buildSchema_topGroupings_definedOnce :
    ∃ schema modules w t t', buildSchema (usedTwice [groupingG "x"]) {} = .ok schema ∧
      Builds (usedTwice [groupingG "x"]) {} modules w schema ∧ w.tasks.uses = [t, t'] ∧
      t.site = .module ⟨0⟩ ∧ t'.site = .module ⟨1⟩ ∧ t'.resolve w.draft = t.resolve w.draft := by
  have hbuild : ((buildSchema (usedTwice [groupingG "x"]) {}).toOption).isSome = true := by
    decide +kernel
  have hcheck : ((collectSources (usedTwice [groupingG "x"])).toOption.any fun r =>
      r.link.toOption.any fun order => ((declareModules r {} order).run {}).toOption.any fun x =>
        decide ((x.2.tasks.uses.map fun t => (t.site, t.grouping)) = [
          (.module ⟨0⟩, ⟨⟨"urn:m", none⟩, "g"⟩), (.module ⟨1⟩, ⟨⟨"urn:m", none⟩, "g"⟩)] ∧
          (x.1.flatMap fun m => (x.2.draft.groupingsAt (.module m)).map fun g =>
            (x.2.draft.grouping g).facts.name) = [⟨⟨"urn:m", none⟩, "g"⟩])) = true := by
    decide +kernel
  simp only [Option.any_eq_true, Option.isSome_iff_exists, toOption_eq_some, decide_eq_true_eq]
    at hbuild hcheck
  obtain ⟨schema, hschema⟩ := hbuild
  obtain ⟨_, hr, _, hlink, ⟨_, _⟩, hdeclared, huses, hnames⟩ := hcheck
  obtain ⟨_, _, modules, w, as, -, -, hbuilds, has, -, -, hsame⟩ := buildSchema_topGroupings hschema
  obtain ⟨rfl, rfl⟩ := hbuilds.declared_eq hr hlink hdeclared
  simp only [List.map_eq_cons_iff, List.map_eq_nil_iff, Prod.mk.injEq] at huses
  obtain ⟨t, _, huses, ⟨hsite, hq⟩, t', _, rfl, ⟨hsite', hq'⟩, rfl⟩ := huses
  obtain ⟨a, ha, c, hc, p, ht⟩ := has.exists_exposes (t := t) (by rw [huses]; simp) hsite
  obtain ⟨a', ha', c', hc', p', ht'⟩ := has.exists_exposes (t := t') (by rw [huses]; simp) hsite'
  refine ⟨schema, modules, w, t, t', hschema, hbuilds, huses, hsite, hsite',
    hsame a ha c hc p t ht a' ha' c' hc' p' t' ht' (hq'.trans hq.symm) ?_⟩
  rw [has.topNames_eq, hnames, hq]
  decide

/-- If `g` is defined twice, the uses in the defining module means the last definition, and the one in the
importing module the first. -/
theorem repeated_name_two_groupings :
    ∃ schema r order modules w as,
      buildSchema (usedTwice [groupingG "x", groupingG "y"]) {} = .ok schema ∧
      collectSources (usedTwice [groupingG "x", groupingG "y"]) = .ok r ∧ r.link = .ok order ∧
      Builds (usedTwice [groupingG "x", groupingG "y"]) {} modules w schema ∧
      r.Mapped order modules w as ∧
      ∃ a ∈ as, ∃ c ∈ a.charts, ∃ p t, c.Exposes p t ∧
        ∃ a' ∈ as, ∃ c' ∈ a'.charts, ∃ p' t', c'.Exposes p' t' ∧ t'.grouping = t.grouping ∧
          t.resolve w.draft = some ⟨1⟩ ∧ t'.resolve w.draft = some ⟨0⟩ := by
  have hbuild : ((buildSchema (usedTwice [groupingG "x", groupingG "y"]) {}).toOption).isSome = true := by
    decide +kernel
  have hcheck : ((collectSources (usedTwice [groupingG "x", groupingG "y"])).toOption.any fun r =>
      r.link.toOption.any fun order => ((declareModules r {} order).run {}).toOption.any fun x =>
        decide (x.2.tasks.uses.map (fun t => (t.site, t.grouping, t.resolve x.2.draft)) = [
          (.module ⟨0⟩, ⟨⟨"urn:m", none⟩, "g"⟩, some ⟨1⟩),
          (.module ⟨1⟩, ⟨⟨"urn:m", none⟩, "g"⟩, some ⟨0⟩)])) = true := by
    decide +kernel
  simp only [Option.any_eq_true, Option.isSome_iff_exists, toOption_eq_some, decide_eq_true_eq]
    at hbuild hcheck
  obtain ⟨schema, hschema⟩ := hbuild
  obtain ⟨_, hr, _, hlink, ⟨_, _⟩, hdeclared, huses⟩ := hcheck
  obtain ⟨modules, w, hbuilds⟩ := exists_builds hschema
  obtain ⟨rfl, rfl⟩ := hbuilds.declared_eq hr hlink hdeclared
  obtain ⟨r, order, as, hr', hlink', has⟩ := hbuilds.exists_mapped
  simp only [List.map_eq_cons_iff, List.map_eq_nil_iff, Prod.mk.injEq] at huses
  obtain ⟨t, _, huses, ⟨hsite, hq, hg⟩, t', _, rfl, ⟨hsite', hq', hg'⟩, rfl⟩ := huses
  obtain ⟨a, ha, c, hc, p, ht⟩ := has.exists_exposes (t := t) (by rw [huses]; simp) hsite
  obtain ⟨a', ha', c', hc', p', ht'⟩ := has.exists_exposes (t := t') (by rw [huses]; simp) hsite'
  exact ⟨schema, r, order, modules, w, as, hschema, hr', hlink', hbuilds, has, a, ha, c, hc, p, t, ht, a',
    ha', c', hc', p', t', ht', hq'.trans hq.symm, hg, hg'⟩

end YangSchema
