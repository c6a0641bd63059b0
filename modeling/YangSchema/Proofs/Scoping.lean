import YangSchema.Proofs.Declaration.Outlining

/-!
# The scopes of uses

Declaring a source leaves an outline of all of it (`Setting.Scoped`): the statements at the top first,
of which only augmentations have bodies, then the body of the source.  With it
`uses_see_the_nearest_grouping` says which groupings the scope of each uses finds, by the statements
around the uses alone.
-/

namespace YangSchema

open Draft Edit Declare

/-- The outline is right about all statements of a source, which has the groupings `gs` at its top. -/
structure Setting.Drawn (k : Setting) (root : Statement) (gs : List GroupingId) (o : Outline)
    (d : Draft) : Prop where
  nodup : (o.map Prod.fst).Nodup
  there : ∀ t ∈ o.sites, d.HasSite t
  listed : List.Forall₂ (fun e g => ([e.2], Mark.body (.grouping g)) ∈ o)
    (root.allAt (.word .grouping)) gs
  describes : k.Describes (.module k.target) root [] o d o
  complete : ∀ p u, k.prefixes.Inside root p u → u.keyword = .word .uses → ∃ t, (p, .uses t) ∈ o

/-- The source was declared by the outline; its module lists the groupings `gs` more. -/
structure Setting.Scoped (k : Setting) (root : Statement) (gs : List GroupingId) (o : Outline)
    (w w' : Workspace) : Prop extends k.Drawn root gs o w'.draft where
  made : o.Made (.module k.target) gs w w'

namespace Setting

variable {k : Setting} {w w' : Workspace} {root c : Statement} {i : Nat}

/-! ## The top of a source -/

theorem gives_editFacts_quiet (f : ModuleFacts → ModuleFacts) :
    Gives (k.editFacts f) w fun _ w' => w.draft.KeepsLists w'.draft ∧ w'.tasks.uses = w.tasks.uses :=
  gives_edit ((ends_editModule_quiet (by intro; rfl) _).mono (fun _ _ h => ⟨h, rfl⟩) fun _ _ => id)

/-- Apart from augmentations the statements at the top leave nothing. -/
theorem gives_declareTop_quiet (hc : c.keyword ≠ .word .augment) :
    Gives (k.declareTop c) w fun _ w' =>
      w.draft.KeepsLists w'.draft ∧ w'.tasks.uses = w.tasks.uses := by
  refine gives_declareTop_of (fun _ f _ _ => gives_editFacts_quiet f) (fun h => absurd h hc) (fun _ => ?_)
    fun _ _ _ _ _ => ⟨.refl _, rfl⟩
  refine gives_declareDeviation_of fun x deviated _ _ => ?_
  exact (gives_editFacts_quiet _).mono fun _ _ h => ⟨h, fun _ => h⟩

/-- An augmentation at the top is declared with its body, which sees nothing of the module. -/
theorem gives_declareTopAugment_part (hi : root.children[i]? = some c)
    (hc : c.keyword = .word .augment) :
    Gives (k.declareTopAugment c) w fun _ w' => ∃ o,
      k.Part (.module k.target) root [] [] (· = i) [] o w w' ∧ k.prefixes.Covers root i o := by
  unfold declareTopAugment
  rw [gives_bind, gives_check]
  intro target _
  rw [gives_bind, gives_nextOrder, gives_bind]
  refine (gives_declareAugment_opened (s := .module k.target) hc).mono fun a w₁ h₁ => ?_
  rw [gives_bind]
  refine gives_edit ((ends_editModule_quiet (by intro; rfl) _).mono (fun _ d₂ h₂ => ?_) fun _ _ => id)
  generalize hw₂ : ({ w₁ with draft := d₂ } : Workspace) = w₂
  have hkeeps : w₁.draft.KeepsLists w₂.draft := hw₂ ▸ h₂
  have hopened : k.Opened (.module k.target) [] c (.augment a) w w₂ :=
    { h₁.toAwaits.mono (hkeeps.listsMore (.module k.target)) (by simp) with
      lists := h₁.lists.trans_keeps hkeeps
      tasks := hw₂ ▸ h₁.tasks }
  have huses : c.keyword ≠ .word .uses := by
    rw [hc]
    decide
  have hsees : root.sees c = false := by simp [Statement.sees, hc]
  rw [gives_bind]
  refine (k.outlines c.depth (.augment a) c [] _ w₂ hopened.there huses).mono ?_
  rintro _ w₃ ⟨gs, o, hmade, hout⟩
  have hpart : k.Part (.module k.target) root [] [] (· = i) []
      (([i], .body (.augment a)) :: o.under i) w w₃ :=
    .of_body hopened hmade hout hi (fun _ => hc) (.inr (.inr (.inl hc)))
      (Prefixes.passes_of_not_sees hsees)
  rw [gives_addAugmentTask]
  exact ⟨_, { hpart with made := { hpart.made with } }, hout.covers (by simp) hi huses⟩

theorem gives_declareTops_part (hs : w.draft.HasSite (.module k.target)) :
    Gives (root.children.forM fun c => located (k.trace c) (k.declareTop c)) w fun _ w' => ∃ o,
      k.Part (.module k.target) root [] []
        (fun i => ∃ c, root.children[i]? = some c ∧ c.keyword = .word .augment) [] o w w' ∧
      ∀ i c, root.children[i]? = some c → c.keyword = .word .augment → k.prefixes.Covers root i o := by
  have hchildren : root.children = root.children.zipIdx.map Prod.fst := (List.zipIdx_map_fst _ _).symm
  rw [hchildren, forM_map, ← hchildren]
  refine (gives_forM_part k (.module k.target) root [] [] Prod.snd
    (I := fun i => ∃ c, root.children[i]? = some c ∧ c.keyword = .word .augment)
    (P := fun z o _ => z.1.keyword = .word .augment → k.prefixes.Covers root z.2 o) ?_ ?_ hs ?_).mono ?_
  · rw [List.zipIdx_map_snd]
    exact List.nodup_range'
  · rintro z o o' - - h hsub - hz
    exact (h hz).mono hsub
  · rintro ⟨c, i⟩ hz w₁ -
    have hc := List.mk_mem_zipIdx_iff_getElem?.1 hz
    rw [gives_located]
    by_cases hkeyword : c.keyword = .word .augment
    · have htop : k.declareTop c = k.declareTopAugment c := by
        unfold declareTop
        rw [hkeyword]
      rw [htop]
      refine (gives_declareTopAugment_part hc hkeyword).mono ?_
      rintro _ w₂ ⟨o, ho, hcovers⟩
      exact ⟨o, ho.weaken fun j hj => ⟨hj, c, hj ▸ hc, hkeyword⟩, fun _ => hcovers⟩
    · refine (gives_declareTop_quiet hkeyword).mono ?_
      rintro _ w₂ ⟨h, ht⟩
      exact ⟨[], .nothing h ht, fun h => absurd h hkeyword⟩
  · rintro _ w₁ ⟨o, ho, hcovers⟩
    exact ⟨o, ho, fun i c hc => hcovers (c, i) (List.mk_mem_zipIdx_iff_getElem?.2 hc)⟩

/-! ## Sources -/

theorem gives_declareSource_scoped (hs : w.draft.HasSite (.module k.target))
    (hroot : root.keyword ≠ .word .uses) :
    Gives (k.declareSource root) w fun _ w' => ∃ gs o, k.Scoped root gs o w w' := by
  unfold declareSource
  rw [gives_bind]
  refine (gives_declareTops_part hs).mono ?_
  rintro _ w₁ ⟨o, ho, htops⟩
  refine (k.outlines root.depth (.module k.target) root [] [] w₁ (ho.made.lists.hasSite hs) hroot).mono ?_
  rintro _ w₂ ⟨gs, o', hmade, hout⟩
  have hne : ∀ t ∈ o.sites, t ≠ .module k.target := fun t ht => ho.ne_site hs ht
  have hall := ho.made.trans hmade
  refine ⟨gs, o ++ o', ⟨?_, hall.there, ?_, ?_, ?_⟩, hall⟩
  · rw [List.map_append]
    refine ho.nodup.append hout.nodup (Part.disjoint ho.heads (J := fun i =>
      ∃ c, root.children[i]? = some c ∧ c.keyword ≠ .word .augment) (fun e he => ?_) ?_)
    · obtain ⟨i, p, c, hp, hc⟩ := hout.heads e he
      exact ⟨i, p, hp, c, hc⟩
    · rintro i ⟨c, hc, hkeyword⟩ ⟨c', hc', hkeyword'⟩
      rw [hc] at hc'
      cases hc'
      exact hkeyword' hkeyword
  · exact hout.listed.imp fun _ _ h => List.mem_append_right _ h
  · refine .append (ho.describes.mono (List.subset_append_left _ _) hmade.lists fun t ht =>
      ⟨ho.made.there t ht, hne t ht⟩) (hout.describes.mono (List.subset_append_right _ _)
        ((KeepsLists.refl _).listsMore (.module k.target)) fun t ht => ⟨hmade.there t ht, ?_⟩)
    rintro rfl
    exact hmade.fresh _ ht (ho.made.lists.hasSite hs)
  · intro p u hin hu
    obtain ⟨i, p', rfl⟩ := List.exists_cons_of_ne_nil hin.ne_nil
    obtain ⟨c, hc⟩ : ∃ c, root.children[i]? = some c := by
      cases hin with
      | direct hc _ => exact ⟨_, hc⟩
      | deeper hc _ _ _ => exact ⟨_, hc⟩
    by_cases hkeyword : c.keyword = .word .augment
    · obtain ⟨t, ht⟩ := htops i c hc hkeyword p' u hin hu
      exact ⟨t, List.mem_append_left _ ht⟩
    · obtain ⟨t, ht⟩ := hout.complete i c hc hkeyword p' u hin hu
      exact ⟨t, List.mem_append_right _ ht⟩

/-! ## What a uses sees -/

namespace Drawn

variable {gs : List GroupingId} {o : Outline} {d : Draft} {p r : Position} {q : QName} {g : GroupingId}
  {t : UsesTask}

/-- The grouping that is found bears the name. -/
theorem name_eq (h : k.Drawn root gs o d) (hr : k.prefixes.nearest? q root p = some r)
    (hg : (r, .body (.grouping g)) ∈ o) : (d.grouping g).facts.name = q := by
  obtain ⟨c, text, hat, htext, hq⟩ := Prefixes.defines_of_nearest? hr
  obtain ⟨c', hin, ⟨-, text', htext', hname⟩, -⟩ := h.describes.bodies r _ hg
  rw [hin.at?] at hat
  cases hat
  rw [htext] at htext'
  cases htext'
  exact hname.trans hq

end Drawn

end Setting

/-- **Grouping names are lexically scoped**: the scope of a uses maps a name to the grouping that the
nearest body around the uses defines by that name, and has nothing for a name that none defines. -/
theorem uses_see_the_nearest_grouping {k : Setting} {root : Statement} {w w' : Workspace}
    (hs : w.draft.HasSite (.module k.target)) (hroot : root.keyword ≠ .word .uses)
    (h : k.declareSource root w = .ok (⟨⟩, w')) :
    ∃ gs o, k.Scoped root gs o w w' ∧
      ∀ p u, k.prefixes.Inside root p u → u.keyword = .word .uses →
        ∃ t ∈ w'.tasks.uses, (p, .uses t) ∈ o ∧ t.trace = k.trace u ∧
          (∃ text, u.argument = some text ∧ k.prefixes.qname text = .ok t.grouping) ∧
          ∀ q,
            (∀ r, k.prefixes.nearest? q root p = some r → ∃ g, (r, .body (.grouping g)) ∈ o ∧
              (w'.draft.grouping g).facts.name = q ∧ t.scope.find? q = some g) ∧
            (k.prefixes.nearest? q root p = none → t.scope.find? q = none) := by
  obtain ⟨gs, o, hscoped⟩ := Setting.gives_declareSource_scoped hs hroot ⟨⟩ w' h
  refine ⟨gs, o, hscoped, fun p u hin hu => ?_⟩
  obtain ⟨t, ht⟩ := hscoped.complete p u hin hu
  have hasked := hscoped.describes.uses p t ht
  obtain ⟨u', text, hin', -, htext, hq, htrace⟩ := hasked.statement
  obtain rfl : u' = u := by
    have hat := hin'.at?
    rw [hin.at?] at hat
    exact (Option.some.inj hat).symm
  refine ⟨t, ?_, ht, htrace, ⟨text, htext, hq⟩, fun q => ⟨fun r hr => ?_, fun hnone => ?_⟩⟩
  · rw [hscoped.made.tasks]
    exact List.mem_append_right _ (Outline.mem_tasks.2 ⟨p, ht⟩)
  · have hfinds := hasked.scope q
    rw [hr] at hfinds
    obtain ⟨g, hg, hfind⟩ := hfinds
    exact ⟨g, hg, hscoped.toDrawn.name_eq hr hg, hfind⟩
  · have hfinds := hasked.scope q
    rw [hnone] at hfinds
    exact hfinds

/-- A module `m` with a grouping `g`, a container with a grouping `g` of its own behind a uses of it, and
an augmentation that uses `g`. -/
def shadowingRoot : Statement :=
  let uses : Statement := { keyword := .word .uses, argument := some "g" }
  let grouping : Statement := { keyword := .word .grouping, argument := some "g" }
  { keyword := .word .moduleWord
    argument := some "m"
    children := [
      { keyword := .word .augment, argument := some "/m:c", children := [uses] },
      { keyword := .word .container, argument := some "c", children := [uses, grouping] },
      grouping] }

/-- The module before its source is declared. -/
def emptyModule : Workspace where
  draft := Draft.withModule {} { facts := {
    name := "m"
    identity := ⟨"urn:m", none⟩
    ownPrefix := "m" } }

def settingOfM : Setting where
  prefixes := { source := "m.yang", ownPrefix := "m", own := ⟨"urn:m", none⟩ }
  target := ⟨0⟩
  rank := 0
  config := {}

/-- The uses in the container sees the grouping in there, although that stands behind it; the one in the
augmentation sees none. -/
theorem uses_see_the_nearest_grouping_shadowing :
    ∃ w' gs o, settingOfM.declareSource shadowingRoot emptyModule = .ok (⟨⟩, w') ∧
      settingOfM.Scoped shadowingRoot gs o emptyModule w' ∧
      (∃ t g, ([1, 0], .uses t) ∈ o ∧ ([1, 1], .body (.grouping g)) ∈ o ∧
        t.scope.find? ⟨⟨"urn:m", none⟩, "g"⟩ = some g) ∧
      ∃ t, ([0, 0], .uses t) ∈ o ∧ t.scope.find? ⟨⟨"urn:m", none⟩, "g"⟩ = none := by
  have hdeclared : ((settingOfM.declareSource shadowingRoot emptyModule).toOption).isSome = true := by
    decide +kernel
  simp only [Option.isSome_iff_exists, toOption_eq_some] at hdeclared
  obtain ⟨⟨⟨⟩, w'⟩, h⟩ := hdeclared
  have hs : emptyModule.draft.HasSite (.module settingOfM.target) := Nat.zero_lt_one
  obtain ⟨gs, o, hscoped, hall⟩ := uses_see_the_nearest_grouping hs (by decide) h
  refine ⟨w', gs, o, h, hscoped, ?_, ?_⟩
  · obtain ⟨t, -, ht, -, -, hsees⟩ := hall [1, 0] _
      (.deeper rfl (by simp [shadowingRoot]) (.inr (.inr (.inr rfl))) (.direct rfl (by simp)))
      rfl
    obtain ⟨g, hg, -, hfind⟩ := (hsees ⟨⟨"urn:m", none⟩, "g"⟩).1 [1, 1] (by decide +kernel)
    exact ⟨t, g, ht, hg, hfind⟩
  · obtain ⟨t, -, ht, -, -, hsees⟩ := hall [0, 0] _
      (.deeper rfl (by simp [shadowingRoot]) (.inr (.inr (.inl rfl))) (.direct rfl (by simp)))
      rfl
    exact ⟨t, ht, (hsees _).2 (by decide +kernel)⟩

end YangSchema
