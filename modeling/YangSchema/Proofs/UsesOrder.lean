import YangSchema.Proofs.Building
import YangSchema.Proofs.Inference.Blocks

/-!
# The order of what uses bring

A uses does not wait for one that stands before it in the same body.  So of two uses in one body the
nodes of the earlier one stand first only if it is put off no more often than the later one; if it is put
off more often, its nodes stand last (`buildSchema_usesOrder`).
-/

namespace YangSchema

open Draft Edit

section

variable {sources : List ParsedSource} {config : BuildConfig} {modules : List ModuleId} {w : Workspace}
  {d d' : Draft} {schema : Schema} {t u : UsesTask}

theorem Builds.Course.exists_passes (h : Builds.Course sources config modules w d d' schema) :
    ∃ ms, Passes (w.tasks.stage w.draft) ms ⟨[], [], d⟩ :=
  (ends_infer_passes (h.sane.from h.acyclic).toReady).of_ok h.infer

/-- The grouping of every uses is found. -/
theorem Builds.Course.exists_resolve (h : Builds.Course sources config modules w d d' schema)
    (ht : t ∈ w.tasks.uses) : ∃ g, t.resolve w.draft = some g := by
  obtain ⟨ms, hrun⟩ := h.exists_moves
  have hexpanded := hrun.perm_expands.subset ht
  rw [List.append_nil] at hexpanded
  obtain ⟨g, _, hg, -⟩ := hrun.exists_copies (h.sane.from h.acyclic) hexpanded (.nil _)
  exact ⟨g, hg⟩

/-- What two uses in one body bring stands there in the order in which they are expanded. -/
theorem Builds.Course.copiedBefore (h : Builds.Course sources config modules w d d' schema)
    (htu : [t, u].Sublist w.tasks.uses) (hsite : t.site = u.site) :
    ∃ g k, t.resolve w.draft = some g ∧ u.resolve w.draft = some k ∧
      (t.NoLater w.draft w.tasks.uses u → d.CopiedBefore t.site g k) ∧
      (¬ t.NoLater w.draft w.tasks.uses u → d.CopiedBefore t.site k g) := by
  obtain ⟨ms, hpasses⟩ := h.exists_passes
  have hfrom := h.sane.from h.acyclic
  have hrun := hpasses.run
  have hresolve : ∀ v ∈ w.tasks.uses, v.resolve w.draft ≠ none := fun v hv =>
    Option.ne_none_iff_exists'.2 (h.exists_resolve hv)
  obtain ⟨g, hg⟩ := h.exists_resolve (htu.subset List.mem_cons_self)
  obtain ⟨k, hk⟩ := h.exists_resolve (htu.subset (List.mem_cons_of_mem _ List.mem_cons_self))
  obtain ⟨hfirst, hlast⟩ := hpasses.sublist_expands rfl hfrom hresolve h.sane.distinct.of_map htu
  refine ⟨g, k, hg, hk, fun hle => ?_, fun hnot => ?_⟩
  · obtain ⟨g', k', hg', hk', hbefore⟩ := hrun.copiedBefore hfrom (hfirst hle) hsite
    cases hg.symm.trans hg'
    cases hk.symm.trans hk'
    exact hbefore
  · obtain ⟨k', g', hk', hg', hbefore⟩ := hrun.copiedBefore hfrom (hlast hnot) hsite.symm
    cases hg.symm.trans hg'
    cases hk.symm.trans hk'
    rw [hsite]
    exact hbefore

end

/-- In every build that succeeds, of two uses in one body, the earlier one brings its nodes before those
of the later one if it is put off no more often, and behind them otherwise.  The deviations only take
nodes away. -/
theorem buildSchema_usesOrder {sources : List ParsedSource} {config : BuildConfig} {schema : Schema}
    (h : buildSchema sources config = .ok schema) :
    ∃ modules w d d', Builds.Course sources config modules w d d' schema ∧
      (∀ s, (d'.childrenOf s).Sublist (d.childrenOf s)) ∧
      ∀ t u : UsesTask, [t, u].Sublist w.tasks.uses → t.site = u.site →
        ∃ g k, t.resolve w.draft = some g ∧ u.resolve w.draft = some k ∧
          (t.NoLater w.draft w.tasks.uses u → d.CopiedBefore t.site g k) ∧
          (¬ t.NoLater w.draft w.tasks.uses u → d.CopiedBefore t.site k g) := by
  obtain ⟨modules, w, d, d', hcourse⟩ := exists_course h
  exact ⟨modules, w, d, d', hcourse, fun s => hcourse.pruned.children s,
    fun t u htu hsite => hcourse.copiedBefore htu hsite⟩

/-! ## An example -/

/-- A module with two uses, of which the first one has to wait for the uses in its grouping. -/
def overtakenSource : ParsedSource where
  label := "m.yang"
  root := .ok {
    keyword := .word .moduleWord
    argument := some "m"
    children := [
      { keyword := .word .namespaceWord, argument := some "urn:m" },
      { keyword := .word .prefixWord, argument := some "m" },
      { keyword := .word .grouping, argument := some "g"
        children := [{ keyword := .word .uses, argument := some "h" }] },
      { keyword := .word .grouping, argument := some "h"
        children := [{ keyword := .word .uses, argument := some "i" }] },
      { keyword := .word .grouping, argument := some "i"
        children := [{ keyword := .word .leaf, argument := some "x" }] },
      { keyword := .word .grouping, argument := some "j"
        children := [{ keyword := .word .leaf, argument := some "y" }] },
      { keyword := .word .uses, argument := some "g" },
      { keyword := .word .uses, argument := some "j" }] }

/-- What the second uses brings stands first. -/
theorem buildSchema_usesOrder_overtakenSource :
    ∃ schema modules w d d', buildSchema [overtakenSource] {} = .ok schema ∧
      (schema.modules.map fun m => m.children.map fun c => c.name.localName) = [["y", "x"]] ∧
      Builds.Course [overtakenSource] {} modules w d d' schema ∧
      ∃ t u : UsesTask, [t, u].Sublist w.tasks.uses ∧ t.site = u.site ∧
        ¬ t.NoLater w.draft w.tasks.uses u ∧ t.resolve w.draft = some ⟨0⟩ ∧
        u.resolve w.draft = some ⟨3⟩ ∧ d.CopiedBefore t.site ⟨3⟩ ⟨0⟩ := by
  have hcheck : ((buildSchema [overtakenSource] {}).toOption.any fun schema =>
      decide ((schema.modules.map fun m => m.children.map fun c => c.name.localName) =
        [["y", "x"]])) = true := by
    decide +kernel
  have hqueue : ((collectSources [overtakenSource]).toOption.any fun r =>
      r.link.toOption.any fun order => ((declareModules r {} order).run {}).toOption.any fun x =>
        decide (x.2.tasks.uses.map (fun t => (t.site, t.resolve x.2.draft, t.occupies,
            (x.2.draft.usesOf t.uses).augmentations)) = [
          (.grouping ⟨0⟩, some ⟨1⟩, [.grouping ⟨0⟩], []), (.grouping ⟨1⟩, some ⟨2⟩, [.grouping ⟨1⟩], []),
          (.module ⟨0⟩, some ⟨0⟩, [], []), (.module ⟨0⟩, some ⟨3⟩, [], [])])) = true := by
    decide +kernel
  simp only [Option.any_eq_true, toOption_eq_some, decide_eq_true_eq] at hcheck hqueue
  obtain ⟨schema, hschema, hchildren⟩ := hcheck
  obtain ⟨r, hr, order, horder, ⟨modules, w⟩, hdeclared, hqueue⟩ := hqueue
  obtain ⟨modules', w', d, d', hcourse, -, huses⟩ := buildSchema_usesOrder hschema
  -- the declared modules are those
  obtain ⟨r', order', hr', horder', hdeclared'⟩ := hcourse.declared
  obtain rfl : r = r' := Except.ok.inj (hr.symm.trans hr')
  obtain rfl : order = order' := Except.ok.inj (horder.symm.trans horder')
  obtain ⟨rfl, rfl⟩ := Prod.mk.inj (Except.ok.inj (hdeclared.symm.trans hdeclared'))
  simp only [List.map_eq_cons_iff, List.map_eq_nil_iff, Prod.mk.injEq] at hqueue
  obtain ⟨t₁, _, hl, ⟨-, hres₁, hocc₁, -⟩, t₂, _, rfl, ⟨-, -, hocc₂, -⟩, t, _, rfl, ⟨hsite, hres, hocc, -⟩,
    u, _, rfl, ⟨husite, hures, huocc, huaug⟩, rfl⟩ := hqueue
  rw [hl] at huses
  -- the first one awaits the uses in its grouping, which awaits another one
  have hawaits₁ : t₁.Awaits w.draft t₂ := .inl ⟨⟨1⟩, hres₁, by simp [hocc₂]⟩
  have hawaits : t.Awaits w.draft t₁ := .inl ⟨⟨0⟩, hres, by simp [hocc₁]⟩
  have honce₁ : t₁.PutOff w.draft [t₁, t₂, t, u] 1 := .behind (by simp) hawaits₁ (.start t₂)
  have honce : t.PutOff w.draft [t₁, t₂, t, u] 1 := .before (by simp) hawaits honce₁
  have hno : ¬ u.PutOff w.draft [t₁, t₂, t, u] 1 := by
    refine UsesTask.not_putOff_of_forall fun v hv => ?_
    have hnone : ∀ v ∈ [t₁, t₂, t, u], Owner.grouping ⟨3⟩ ∉ v.occupies := by
      simp [hocc₁, hocc₂, hocc, huocc]
    rintro (⟨g, hg, hmem⟩ | ⟨a, ha, -⟩)
    · cases hures.symm.trans hg
      exact hnone v hv hmem
    · rw [huaug] at ha
      cases ha
  have hlast : ¬ t.NoLater w.draft [t₁, t₂, t, u] u := fun h => hno (h 1 honce)
  have hsub : [t, u].Sublist [t₁, t₂, t, u] := by simp
  obtain ⟨g, k, hg, hk, -, hafter⟩ := huses t u hsub (hsite.trans husite.symm)
  cases hres.symm.trans hg
  cases hures.symm.trans hk
  refine ⟨schema, modules, w, d, d', hschema, hchildren, hcourse, t, u, ?_, hsite.trans husite.symm, ?_,
    hres, hures, hafter hlast⟩
  · rw [hl]
    exact hsub
  · rw [hl]
    exact hlast

end YangSchema
