import YangSchema.Proofs.Building
import YangSchema.Proofs.Inference.Succession
import YangSchema.Proofs.Schema.Parts

/-!
# The order in which augmentations take effect

Augmentations of one target are merged by their places among the declarations, and for the same place
in the order of their modules, whatever they have to wait for.  The target lists them in this order,
and what comes from one of them stands before what comes from a later one.  In the finished schema a
node lists the augmentations of modules in the order of a stable sort that knows of no modules
(`buildSchema_mergeOrder`): the modules come in their order anyway.
-/

namespace YangSchema

open Draft Edit List.MergeSort.Internal

/-! ## Stable sorts -/

section Sorts

variable {α β : Type} {r : α → α → Bool} {s : β → β → Bool}

/-- A stable sort asks only whether an element may stand before a later one. -/
theorem map_mergeSort_of_pairwise {f : α → β} :
    ∀ l : List α, l.Pairwise (fun a b => r a b = s (f a) (f b)) →
      (l.mergeSort r).map f = (l.map f).mergeSort s
  | [], _ => by simp
  | [_], _ => by simp
  | a :: b :: l, h => by
    have hsplit := h
    rw [← List.take_append_drop ((l.length + 3) / 2) (a :: b :: l), List.pairwise_append] at hsplit
    obtain ⟨htake, hdrop, hcross⟩ := hsplit
    have hmap : ∀ x ∈ ((a :: b :: l).take ((l.length + 3) / 2)).mergeSort r,
        ∀ y ∈ ((a :: b :: l).drop ((l.length + 3) / 2)).mergeSort r, r x y = s (f x) (f y) :=
      fun x hx y hy => hcross x (List.mem_mergeSort.1 hx) y (List.mem_mergeSort.1 hy)
    simp only [List.mergeSort, splitInTwo_fst, splitInTwo_snd, List.map_cons, List.length_cons,
      List.length_map]
    rw [List.map_merge hmap, map_mergeSort_of_pairwise _ htake, map_mergeSort_of_pairwise _ hdrop,
      List.map_take, List.map_drop]
    rfl
  termination_by l => l.length
  decreasing_by
    all_goals
      simp only [List.length_take, List.length_drop, List.length_cons]
      omega

/-- Lists that correspond are sorted alike. -/
theorem forall₂_mergeSort {R : α → β → Prop} {l : List α} {l' : List β} (h : List.Forall₂ R l l')
    (hrs : (l.zip l').Pairwise fun x y => r x.1 y.1 = s x.2 y.2) :
    List.Forall₂ R (l.mergeSort r) (l'.mergeSort s) := by
  have hlength := h.length_eq
  have hleft := List.map_mergeSort (r := fun x y : α × β => r x.1 y.1) (s := r) (f := Prod.fst)
    (l := l.zip l') fun _ _ _ _ => rfl
  have hright := map_mergeSort_of_pairwise (r := fun x y : α × β => r x.1 y.1) (s := s) (f := Prod.snd)
    (l.zip l') hrs
  rw [List.map_fst_zip (Nat.le_of_eq hlength)] at hleft
  rw [List.map_snd_zip (Nat.le_of_eq hlength.symm)] at hright
  rw [← hleft, ← hright, List.forall₂_map_left_iff, List.forall₂_map_right_iff, List.forall₂_same]
  exact fun x hx => (List.forall₂_iff_zip.1 h).2 (List.mem_mergeSort.1 hx)

end Sorts

/-- What corresponds to a part of a list is part of what corresponds to the list. -/
theorem exists_sublist_of_forall₂ {α β : Type} {R : α → β → Prop} {l l' : List α} {vs : List β}
    (hsub : l'.Sublist l) (h : List.Forall₂ R l vs) : ∃ vs', vs'.Sublist vs ∧ List.Forall₂ R l' vs' := by
  induction hsub generalizing vs with
  | slnil => exact ⟨[], List.nil_sublist _, .nil⟩
  | cons a _ ih =>
    cases h with
    | cons _ hrest =>
      obtain ⟨vs', hsub, h⟩ := ih hrest
      exact ⟨vs', hsub.cons _, h⟩
  | cons_cons a _ ih =>
    cases h with
    | cons ha hrest =>
      obtain ⟨vs', hsub, h⟩ := ih hrest
      exact ⟨_ :: vs', hsub.cons_cons _, .cons ha h⟩

/-! ## The order of the tasks -/

namespace AugmentTask

instance : Std.TransCmp applyOrder :=
  inferInstanceAs (Std.TransCmp (compareLex (compareOn target)
    (compareLex (compareOn order) (compareOn rank))))

variable {t u : AugmentTask} {v w : Augmentation}

theorem applyOrder_swap (t u : AugmentTask) : u.applyOrder t = (t.applyOrder u).swap :=
  Std.OrientedCmp.eq_swap

theorem isLE_or (t u : AugmentTask) : ((t.applyOrder u).isLE || (u.applyOrder t).isLE) = true := by
  rw [t.applyOrder_swap u]
  cases t.applyOrder u <;> rfl

theorem isLE_trans (t u x : AugmentTask) (h : (t.applyOrder u).isLE = true)
    (h' : (u.applyOrder x).isLE = true) : (t.applyOrder x).isLE = true :=
  Std.TransCmp.isLE_trans h h'

/-- Of one target, the place among the declarations counts, and then the module. -/
theorem applyOrder_eq_lt (htarget : t.target = u.target)
    (h : t.order < u.order ∨ t.order = u.order ∧ t.rank < u.rank) : t.applyOrder u = .lt := by
  have hsame : compare t.target u.target = .eq := by
    rw [htarget]
    exact Std.ReflCmp.compare_self
  show (compare t.target u.target).then ((compare t.order u.order).then (compare t.rank u.rank)) = .lt
  rw [hsame]
  rcases h with h | ⟨h, h'⟩
  · rw [Nat.compare_eq_lt.2 h]
    rfl
  · rw [Nat.compare_eq_eq.2 h, Nat.compare_eq_lt.2 h']
    rfl

/-- Where modules come in their order anyway, they need not be compared. -/
theorem isLE_applyOrder (hv : v.facts.target = t.target ∧ v.facts.order = t.order)
    (hw : w.facts.target = u.target ∧ w.facts.order = u.order) (hrank : t.rank ≤ u.rank) :
    (t.applyOrder u).isLE = (v.applyOrder w).isLE := by
  show ((compare t.target u.target).then ((compare t.order u.order).then (compare t.rank u.rank))).isLE =
    ((compare v.facts.target w.facts.target).then (compare v.facts.order w.facts.order)).isLE
  rw [hv.1, hv.2, hw.1, hw.2]
  have hle : (compare t.rank u.rank).isLE = true := Nat.isLE_compare.2 hrank
  cases compare t.target u.target with
  | lt => rfl
  | gt => rfl
  | eq =>
    cases compare t.order u.order with
    | lt => rfl
    | gt => rfl
    | eq => exact hle

end AugmentTask

/-- Of two tasks the smaller one comes first. -/
theorem sublist_mergeSort_of_lt {l : List AugmentTask} {t u : AugmentTask} (ht : t ∈ l) (hu : u ∈ l)
    (h : t.applyOrder u = .lt) :
    [t, u].Sublist (l.mergeSort fun a b => (a.applyOrder b).isLE) := by
  have hsorted : (l.mergeSort fun a b => (a.applyOrder b).isLE).Pairwise
      fun a b => (a.applyOrder b).isLE = true :=
    List.pairwise_mergeSort AugmentTask.isLE_trans AugmentTask.isLE_or l
  obtain ⟨pre, post, hl⟩ := List.append_of_mem (List.mem_mergeSort.2 ht)
  have hu' : u ∈ l.mergeSort fun a b => (a.applyOrder b).isLE := List.mem_mergeSort.2 hu
  rw [hl] at hsorted hu' ⊢
  have hnot : ¬ (u.applyOrder t).isLE = true := by
    rw [t.applyOrder_swap u, h]
    decide
  rcases List.mem_append.1 hu' with hpre | hrest
  · exact absurd ((List.pairwise_append.1 hsorted).2.2 u hpre t List.mem_cons_self) hnot
  rcases List.mem_cons.1 hrest with rfl | hpost
  · rw [h] at hnot
    exact absurd rfl hnot
  · exact ((List.singleton_sublist.2 hpost).cons_cons t).trans (List.sublist_append_right _ _)

/-! ## One augmentation before the other -/

/-- In the node `n` the augmentation `a` takes effect before `b`: the node lists it before, and the
children that come from it stand before those that come from `b`. -/
structure Draft.MergedBefore (d : Draft) (a b : AugmentId) (n : NodeId) : Prop where
  listed : [a, b].Sublist (d.node n).augmentations
  children : ∃ pre post, d.childrenOf (.node n) = pre ++ post ∧ (∀ c ∈ post, ¬ d.Stems a c) ∧
    ∀ c ∈ pre, ¬ d.Stems b c

namespace Workspace.Declared

variable {modules : List ModuleId} {w : Workspace} {ms : List Move} {d : Draft} {t u : AugmentTask}
  (h : w.Declared modules) (hcycle : checkGroupings w.draft w.tasks.uses = .ok ())
  (hrun : Run (w.tasks.stage w.draft) ms ⟨[], [], d⟩)
include h

theorem nodup_augments : ((w.tasks.stage w.draft).augments.map AugmentTask.augment).Nodup := by
  have hperm := (List.mergeSort_perm w.tasks.augments fun a b => (a.applyOrder b).isLE).map
    AugmentTask.augment
  refine hperm.nodup_iff.2 (List.pairwise_map.2 (h.ascending.imp fun hlt heq => ?_))
  rw [heq] at hlt
  exact Nat.lt_irrefl _ hlt

theorem stands_stage : ∀ t ∈ (w.tasks.stage w.draft).augments, t.Stands w.draft :=
  fun t ht => h.augments t (List.mem_mergeSort.1 ht)

include hcycle hrun

/-- Of two augmentations of one target the smaller one takes effect first. -/
theorem mergedBefore (ht : t ∈ w.tasks.augments) (hu : u ∈ w.tasks.augments)
    (htarget : t.target = u.target) (hlt : t.applyOrder u = .lt) :
    ∃ n, d.findDataNode t.target = some n ∧ d.MergedBefore t.augment u.augment n := by
  have hsub : [t, u].Sublist (w.tasks.stage w.draft).augments := sublist_mergeSort_of_lt ht hu hlt
  obtain ⟨n, hn, htops⟩ := (hrun.topsAt (h.from hcycle) h.pristine h.stands_stage).1 t
    (List.mem_mergeSort.2 ht)
  refine ⟨n, hn, ?_, hrun.apart (h.from hcycle) h.pristine h.stands_stage h.nodup_augments hsub
    htarget hn⟩
  have hboth : [t, u].filter (·.target == t.target) = [t, u] := by simp [htarget]
  have hlisted : [t, u].Sublist ((w.tasks.stage w.draft).augments.filter (·.target == t.target)) :=
    hboth ▸ hsub.filter _
  have htopsub : ((w.tasks.stage w.draft).draft.topsAt d n).Sublist (d.node n).augmentations :=
    List.filter_sublist
  rw [htops] at htopsub
  exact (hlisted.map AugmentTask.augment).trans htopsub

end Workspace.Declared

/-! ## In the schema -/

theorem Draft.NodeSnapshot.augmentations {d : Draft} {i : NodeId} {n : Node} (h : d.NodeSnapshot i n) :
    List.Forall₂ d.AugmentSnapshot (d.node i).augmentations n.augmentations := by
  obtain ⟨_ | f, hf⟩ := h
  · exact hf.elim
  obtain ⟨children, augmentations, -, ha, hn⟩ := hf
  have hall := ha.imp fun _ _ h => (⟨f, h⟩ : d.AugmentSnapshot _ _)
  split at hn
  · obtain ⟨child, rest, -, rfl⟩ := hn
    exact hall
  · obtain ⟨origin, groupings, uses, -, -, -, rfl⟩ := hn
    exact hall

theorem Draft.Pruned.augmentations {d d' : Draft} (h : Pruned d d') (i : NodeId) :
    (d'.node i).augmentations = (d.node i).augmentations :=
  (h.lists (.node i)).2.2

namespace Builds

variable {sources : List ParsedSource} {config : BuildConfig} {modules : List ModuleId} {w : Workspace}
  {schema : Schema} {i j : Nat} {m : ModuleId} {a : AugmentId}

theorem ranked (h : Builds sources config modules w schema) : w.Ranked modules := by
  obtain ⟨r, order, -, -, hdeclared⟩ := h.declared
  exact (gives_declareModules_ranked r config order modules w hdeclared).2.1

/-- An augmentation that a module lists has a task with the rank of the module. -/
theorem exists_task (h : Builds sources config modules w schema) (hm : modules[i]? = some m)
    (ha : a ∈ (w.draft.module m).augmentations) :
    ∃ t ∈ w.tasks.augments, t.augment = a ∧ t.rank = i := by
  have hmem : (i, a) ∈ w.tasks.augments.map fun t => (t.rank, t.augment) := by
    rw [h.ranked]
    exact List.mem_flatMap.2 ⟨(m, i), List.mk_mem_zipIdx_iff_getElem?.2 hm, List.mem_map_of_mem ha⟩
  obtain ⟨t, ht, heq⟩ := List.mem_map.1 hmem
  exact ⟨t, ht, congrArg Prod.snd heq, congrArg Prod.fst heq⟩

/-- The tasks of modules come in the order of the modules. -/
theorem pairwise_rank (h : Builds sources config modules w schema) :
    w.tasks.augments.Pairwise fun t u => t.rank ≤ u.rank := by
  have hranks : (w.tasks.augments.map fun t => (t.rank, t.augment)).Pairwise fun x y => x.1 ≤ y.1 := by
    rw [h.ranked, List.pairwise_flatMap]
    constructor
    · intro x _
      exact List.pairwise_map.2 (List.pairwise_of_forall fun _ _ => Nat.le_refl _)
    · have hindex : modules.zipIdx.Pairwise fun x y => x.2 < y.2 := by
        rw [← List.pairwise_map (f := Prod.snd) (R := (· < ·)), List.zipIdx_map_snd]
        exact List.pairwise_lt_range' 1
      refine hindex.imp fun hlt p hp q hq => ?_
      obtain ⟨_, -, rfl⟩ := List.mem_map.1 hp
      obtain ⟨_, -, rfl⟩ := List.mem_map.1 hq
      exact Nat.le_of_lt hlt
  rw [List.pairwise_map] at hranks
  exact hranks

/-- The augmentations of the tasks are those that the modules list. -/
theorem map_augment (h : Builds sources config modules w schema) :
    w.tasks.augments.map AugmentTask.augment =
      modules.flatMap fun m => (w.draft.module m).augmentations := by
  have hids := congrArg (List.map Prod.snd) h.ranked
  rw [List.map_map, List.map_flatMap] at hids
  refine hids.trans ?_
  conv_rhs => rw [← List.zipIdx_map_fst 0 modules, List.flatMap_map]
  refine List.flatMap_congr fun x _ => ?_
  rw [List.map_map]
  exact List.map_id _

end Builds

namespace Builds.Course

variable {sources : List ParsedSource} {config : BuildConfig} {modules : List ModuleId} {w : Workspace}
  {d d' : Draft} {schema : Schema} {t : AugmentTask} {v : Augmentation} {i j : Nat} {m m' : ModuleId}
  {a b : AugmentId} (h : Course sources config modules w d d' schema)
include h

/-- Of two augmentations of one target that modules list, the one takes effect first that stands before
among the declarations of its module, or in the same place of an earlier module. -/
theorem mergedBefore (hm : modules[i]? = some m) (hm' : modules[j]? = some m')
    (ha : a ∈ (d.module m).augmentations) (hb : b ∈ (d.module m').augmentations)
    (htarget : (d.augment a).facts.target = (d.augment b).facts.target)
    (horder : (d.augment a).facts.order < (d.augment b).facts.order ∨
      (d.augment a).facts.order = (d.augment b).facts.order ∧ i < j) :
    ∃ n, d.findDataNode (d.augment a).facts.target = some n ∧ d.MergedBefore a b n := by
  obtain ⟨ms, hrun⟩ := h.exists_moves
  rw [h.follows.tops] at ha hb
  obtain ⟨t, ht, rfl, rfl⟩ := h.exists_task hm ha
  obtain ⟨u, hu, rfl, rfl⟩ := h.exists_task hm' hb
  have hk := h.follows.keeps
  have htstands := h.sane.augments t ht
  have hustands := h.sane.augments u hu
  rw [hk.target _ htstands.lt, hk.target _ hustands.lt, htstands.target, hustands.target] at htarget
  rw [hk.order _ htstands.lt, hk.order _ hustands.lt, htstands.order, hustands.order] at horder
  rw [hk.target _ htstands.lt, htstands.target]
  exact h.sane.mergedBefore h.acyclic hrun ht hu htarget (AugmentTask.applyOrder_eq_lt htarget horder)

/-- The snapshot of an augmentation says of its target and place what its task says. -/
theorem snapshot_task (ht : t ∈ w.tasks.augments) (hv : d'.AugmentSnapshot t.augment v) :
    v.facts.target = t.target ∧ v.facts.order = t.order := by
  have hstands := h.sane.augments t ht
  have hk := h.follows.keeps
  rw [hv.facts_children.1, h.pruned.augment_eq, hk.target _ hstands.lt, hk.order _ hstands.lt]
  exact ⟨hstands.target, hstands.order⟩

/-- The augmentations of all modules are the snapshots of those of the tasks. -/
theorem forall₂_augmentations : List.Forall₂ (fun t v => d'.AugmentSnapshot t.augment v) w.tasks.augments
    (schema.modules.flatMap Module.augmentations) := by
  have hlists : List.Forall₂ d'.AugmentSnapshot (modules.flatMap fun m => (w.draft.module m).augmentations)
      (schema.modules.flatMap Module.augmentations) := by
    refine List.rel_flatMap h.snapshots fun m v hv => ?_
    have hsame : (d'.module m).augmentations = (d.module m).augmentations :=
      (h.pruned.lists (.module m)).2.2
    rw [← h.follows.tops, ← hsame]
    exact hv.augmentations
  rw [← h.map_augment, List.forall₂_map_left_iff] at hlists
  exact hlists

/-- In the order in which the tasks are carried out the augmentations are in the order of the stable
sort that does not know the modules. -/
theorem forall₂_inOrder : List.Forall₂ (fun t v => d'.AugmentSnapshot t.augment v)
    (w.tasks.stage w.draft).augments schema.augmentationsInOrder := by
  have hall := h.forall₂_augmentations
  refine forall₂_mergeSort hall ?_
  have hranks := h.pairwise_rank
  rw [← List.map_fst_zip (Nat.le_of_eq hall.length_eq), List.pairwise_map] at hranks
  refine hranks.imp_of_mem fun {x y} hx hy hrank => ?_
  have hsnap : ∀ {z}, z ∈ w.tasks.augments.zip (schema.modules.flatMap Module.augmentations) →
      z.2.facts.target = z.1.target ∧ z.2.facts.order = z.1.order := fun hz =>
    h.snapshot_task (List.of_mem_zip hz).1 ((List.forall₂_iff_zip.1 hall).2 hz)
  exact AugmentTask.isLE_applyOrder (hsnap hx) (hsnap hy) hrank

/-- The targets of augmentations of modules lead from the schema root. -/
theorem absolute_of_mem {v : Augmentation} (hv : v ∈ schema.modules.flatMap Module.augmentations) :
    v.facts.target.absolute = true := by
  obtain ⟨t, ht, hsnap⟩ := exists_of_forall₂_right h.forall₂_augmentations hv
  rw [(h.snapshot_task ht hsnap).1]
  exact (h.sane.augments t ht).absolute

/-- What a node has noted of augmentations that lead from the schema root, and what its snapshot
lists of them. -/
theorem forall₂_topsAt {k : NodeId} {n : Node} (hn : d'.NodeSnapshot k n) :
    List.Forall₂ d'.AugmentSnapshot (w.draft.topsAt d k)
      (n.augmentations.filter (·.facts.target.absolute)) := by
  have hfrom := h.sane.from h.acyclic
  have hdeclared : w.draft.NotesDeclared d := h.sane.pristine.notesDeclared.strokes
    (S := w.tasks.stage w.draft) h.sane.sound hfrom.declared h.strokes
  have hall : List.Forall₂ (fun a v => d'.AugmentSnapshot a v ∧ a.index < w.draft.augments.size)
      (d.node k).augmentations n.augmentations := by
    have hsnap := hn.augmentations
    rw [h.pruned.augmentations] at hsnap
    rw [List.forall₂_iff_zip] at hsnap ⊢
    exact ⟨hsnap.1, fun hz => ⟨hsnap.2 hz, hdeclared k _ (List.of_mem_zip hz).1⟩⟩
  refine (List.rel_filter (fun a v hav => ?_) hall).imp fun _ _ hav => hav.1
  show (w.draft.augment a).facts.target.absolute = true ↔ v.facts.target.absolute = true
  rw [hav.1.facts_children.1, h.pruned.augment_eq, h.follows.keeps.target a hav.2]

/-- Of the augmentations that lead from the schema root a node lists some of all, in order. -/
theorem sublist_inOrder {k : NodeId} {n : Node} (hn : d'.NodeSnapshot k n) :
    (n.augmentations.filter (·.facts.target.absolute)).Sublist schema.augmentationsInOrder := by
  obtain ⟨ms, hrun⟩ := h.exists_moves
  have htops := h.forall₂_topsAt hn
  have hqueue := hrun.topsAt (h.sane.from h.acyclic) h.sane.pristine h.sane.stands_stage
  have hcases : (w.draft.topsAt d k).Sublist
      ((w.tasks.stage w.draft).augments.map AugmentTask.augment) := by
    rcases hqueue.2 k with hnone | ⟨t, ht, hfound⟩
    · exact hnone ▸ List.nil_sublist _
    · obtain ⟨k', hfound', hlist⟩ := hqueue.1 t ht
      obtain rfl : k' = k := Option.some.inj (hfound'.symm.trans hfound)
      have htops : w.draft.topsAt d k' = _ := hlist
      rw [htops]
      exact List.filter_sublist.map AugmentTask.augment
  obtain ⟨vs, hvs, hall⟩ := exists_sublist_of_forall₂ hcases
    (List.forall₂_map_left_iff.2 h.forall₂_inOrder)
  rw [AugmentSnapshot.unique.forall₂ htops hall]
  exact hvs

/-- Wherever a node is referred to in the schema, it lists augmentations of modules in order. -/
theorem sublist_of_has {n : Node} (hn : schema.Has (.node n)) :
    (n.augmentations.filter (·.facts.target.absolute)).Sublist schema.augmentationsInOrder := by
  obtain ⟨m, hm, q, hq, hqn⟩ := hn
  obtain ⟨k, -, hk⟩ := exists_of_forall₂_right h.snapshots hm
  refine hk.all (P := fun n => (n.augmentations.filter (·.facts.target.absolute)).Sublist
    schema.augmentationsInOrder) (fun k n hn _ => h.sublist_inOrder hn) (fun o _ => ?_) hq n hqn
  rw [Node.wrap_eq_synthesize]
  exact List.nil_sublist _

end Builds.Course

/-- A build comes by a draft in which of two augmentations of one target, declared by modules, the one
takes effect first that stands before among the declarations, or in the same place of an earlier
module.  The nodes of the schema list their augmentations as this draft does.  So those of their
augmentations that modules list are in the order of the stable sort of all of them by target and place,
taken module by module. -/
theorem buildSchema_mergeOrder {sources : List ParsedSource} {config : BuildConfig} {schema : Schema}
    (h : buildSchema sources config = .ok schema) :
    ∃ modules w d d', Builds.Course sources config modules w d d' schema ∧
      (∀ (i j : Nat) (m m' : ModuleId) (a b : AugmentId), modules[i]? = some m →
        modules[j]? = some m' → a ∈ (d.module m).augmentations → b ∈ (d.module m').augmentations →
        (d.augment a).facts.target = (d.augment b).facts.target →
        (d.augment a).facts.order < (d.augment b).facts.order ∨
          (d.augment a).facts.order = (d.augment b).facts.order ∧ i < j →
        ∃ n, d.findDataNode (d.augment a).facts.target = some n ∧ d.MergedBefore a b n) ∧
      (∀ (k : NodeId) (n : Node), d'.NodeSnapshot k n →
        List.Forall₂ d'.AugmentSnapshot (d.node k).augmentations n.augmentations) ∧
      ∀ n, schema.Has (.node n) → ∀ l : List Augmentation, l.Sublist n.augmentations →
        (∀ a ∈ l, a ∈ schema.modules.flatMap Module.augmentations) →
        l.Sublist schema.augmentationsInOrder := by
  obtain ⟨modules, w, d, d', hcourse⟩ := exists_course h
  refine ⟨modules, w, d, d', hcourse, fun i j m m' a b hm hm' ha hb htarget horder =>
    hcourse.mergedBefore hm hm' ha hb htarget horder, fun k n hn => ?_, fun n hn l hl hmem => ?_⟩
  · rw [← hcourse.pruned.augmentations]
    exact hn.augmentations
  · have hall : l.filter (·.facts.target.absolute) = l :=
      List.filter_eq_self.2 fun a ha => hcourse.absolute_of_mem (hmem a ha)
    rw [← hall]
    exact (hl.filter _).trans (hcourse.sublist_of_has hn)

/-! ## An example -/

/-- A module with two augmentations of one container; the first one has to wait for a grouping. -/
def waitingSource : ParsedSource where
  label := "m.yang"
  root := .ok {
    keyword := .word .moduleWord
    argument := some "m"
    children := [
      { keyword := .word .namespaceWord, argument := some "urn:m" },
      { keyword := .word .prefixWord, argument := some "m" },
      { keyword := .word .augment, argument := some "/m:c"
        children := [{ keyword := .word .uses, argument := some "g" }] },
      { keyword := .word .augment, argument := some "/m:c"
        children := [{ keyword := .word .leaf, argument := some "b" }] },
      { keyword := .word .container, argument := some "c" },
      { keyword := .word .grouping, argument := some "g"
        children := [{ keyword := .word .uses, argument := some "h" }] },
      { keyword := .word .grouping, argument := some "h"
        children := [{ keyword := .word .leaf, argument := some "a" }] }] }

/-- The first augmentation takes effect first all the same. -/
theorem buildSchema_mergeOrder_waitingSource :
    ∃ schema modules w d d' n, buildSchema [waitingSource] {} = .ok schema ∧
      Builds.Course [waitingSource] {} modules w d d' schema ∧ d.MergedBefore ⟨0⟩ ⟨1⟩ n := by
  have hcheck : ((collectSources [waitingSource]).toOption.any fun r => r.link.toOption.any fun order =>
      (checkPrefixes r order).toOption.isSome && ((declareModules r {} order).run {}).toOption.any fun x =>
        decide (x.1 = [⟨0⟩] ∧ (x.2.draft.module ⟨0⟩).augmentations = [⟨0⟩, ⟨1⟩] ∧
          (x.2.draft.augment ⟨0⟩).facts.target = (x.2.draft.augment ⟨1⟩).facts.target ∧
          (x.2.draft.augment ⟨0⟩).facts.order < (x.2.draft.augment ⟨1⟩).facts.order ∧
          1 < x.2.draft.augments.size ∧
          x.2.tasks.augments.Pairwise (fun t u => (t.applyOrder u).isLE = true)) &&
        (checkGroupings x.2.draft x.2.tasks.uses).toOption.isSome && x.2.tasks.deviations.isEmpty &&
          ((settle x.2.tasks.uses x.2.tasks.augments).perform x.2.draft).1.toOption.any fun left =>
            left.1.isEmpty && left.2.isEmpty &&
              ((x.1.mapM freezeModule).perform
                ((settle x.2.tasks.uses x.2.tasks.augments).perform x.2.draft).2).1.toOption.isSome) =
      true := by
    decide +kernel
  simp only [Option.any_eq_true, toOption_eq_some, Option.isSome_iff_exists, Bool.and_eq_true,
    decide_eq_true_eq, List.isEmpty_iff] at hcheck
  obtain ⟨r, hr, order, horder, ⟨_, hprefixes⟩, ⟨modules, w⟩, hdeclared, ⟨⟨⟨hmodules, hlisted, htarget,
    hplace, hsize, hsorted⟩, _, hcycle⟩, hdeviations⟩, ⟨uses, augments⟩, hsettle, ⟨hu, ha⟩, ms, hfreeze⟩ :=
    hcheck
  simp only at hmodules hlisted htarget hplace hsize hsorted hcycle hdeviations hsettle hfreeze hu ha
  subst hu ha
  have hinfer := perform_infer_of_pairwise hsorted (Prod.ext hsettle rfl)
  have hbuild : buildSchema [waitingSource] {} = .ok ⟨ms⟩ := by
    refine buildSchema_eq_ok hr horder hprefixes hdeclared hcycle hinfer ?_ hfreeze
    rw [hdeviations, applyDeviations_nil]
    rfl
  obtain ⟨modules', w', d, d', hcourse, hbefore, -⟩ := buildSchema_mergeOrder hbuild
  -- the declared modules are those
  obtain ⟨r', order', hr', horder', hdeclared'⟩ := hcourse.declared
  obtain rfl : r = r' := Except.ok.inj (hr.symm.trans hr')
  obtain rfl : order = order' := Except.ok.inj (horder.symm.trans horder')
  obtain ⟨rfl, rfl⟩ := Prod.mk.inj (Except.ok.inj (hdeclared.symm.trans hdeclared'))
  have hk := hcourse.follows.keeps
  have htops := hcourse.follows.tops ⟨0⟩
  rw [hlisted] at htops
  obtain ⟨n, -, hmerged⟩ := hbefore 0 0 ⟨0⟩ ⟨0⟩ ⟨0⟩ ⟨1⟩ (by rw [hmodules]; rfl) (by rw [hmodules]; rfl)
    (by rw [htops]; decide) (by rw [htops]; decide)
    (by rw [hk.target ⟨0⟩ (Nat.lt_trans Nat.zero_lt_one hsize), hk.target ⟨1⟩ hsize, htarget])
    (.inl (by rw [hk.order ⟨0⟩ (Nat.lt_trans Nat.zero_lt_one hsize), hk.order ⟨1⟩ hsize]; exact hplace))
  exact ⟨⟨ms⟩, modules, w, d, d', n, hbuild, hcourse, hmerged⟩

end YangSchema
