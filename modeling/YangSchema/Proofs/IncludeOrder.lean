import YangSchema.Proofs.Submodules

/-!
# The order of submodules

Someone who reads the includes of a module from top to bottom, and those of every submodule as soon as it
is met, meets the submodules in an order (`Registry.Reads`).  They are not gathered in this order: of
each source all includes are met, and the last one first (`Registry.Opens`).  The two orders are the same
only where there is nothing to choose, that is where no source includes more than one submodule
(`Registry.Opens.eq_read_iff`).
-/

namespace YangSchema

open Relation

namespace Registry

variable {r : Registry} {s t : Source} {pending found subs met : List Source} {l : List Include}

/-! ## Reading -/

/-- Who knows `found` already and reads the includes `l` of `s` from top to bottom, and those of every
source as soon as it is met, knows the sources `met` in the end. -/
inductive Reads (r : Registry) : Source → List Source → List Include → List Source → Prop
  | nil {s : Source} {found : List Source} : Reads r s found [] found
  | old {s t : Source} {found met : List Source} {i : Include} {l : List Include}
      (resolves : r.resolveInclude s i = .ok t) (known : t ∈ found) (rest : Reads r s found l met) :
      Reads r s found (i :: l) met
  | new {s t : Source} {found inner met : List Source} {i : Include} {l : List Include}
      (resolves : r.resolveInclude s i = .ok t) (unknown : t ∉ found)
      (inside : Reads r t (found ++ [t]) t.includes inner) (rest : Reads r s inner l met) :
      Reads r s found (i :: l) met

namespace Reads

theorem known_prefix (h : r.Reads s found l met) : found <+: met := by
  induction h with
  | nil => exact List.prefix_refl _
  | old _ _ _ ih => exact ih
  | new _ _ _ _ ih ih' => exact ((List.prefix_append _ _).trans ih).trans ih'

/-- There is one way to read. -/
theorem unique {met' : List Source} (h : r.Reads s found l met) (h' : r.Reads s found l met') :
    met = met' := by
  induction h generalizing met' with
  | nil =>
    cases h'
    rfl
  | old hresolves hknown _ ih =>
    cases h' with
    | old _ _ hrest => exact ih hrest
    | new hresolves' hunknown _ _ =>
      rw [hresolves] at hresolves'
      cases hresolves'
      exact absurd hknown hunknown
  | new hresolves hunknown _ _ ih ih' =>
    cases h' with
    | old hresolves' hknown _ =>
      rw [hresolves] at hresolves'
      cases hresolves'
      exact absurd hknown hunknown
    | new hresolves' _ hinside hrest =>
      rw [hresolves] at hresolves'
      cases hresolves'
      obtain rfl := ih hinside
      exact ih' hrest

theorem keeps_found (h : r.Reads s found l met) (hfound : r.Found found) : r.Found met := by
  induction h with
  | nil => exact hfound
  | old _ _ _ ih => exact ih hfound
  | new hresolves hunknown _ _ ih ih' =>
    exact ih' (ih (hfound.concat (mem_of_resolveInclude hresolves) hunknown))

theorem mem_of_include (h : r.Reads s found l met) : ∀ i ∈ l, ∃ t ∈ met, r.resolveInclude s i = .ok t := by
  induction h with
  | nil => simp
  | old hresolves hknown hrest ih =>
    exact List.forall_mem_cons.2 ⟨⟨_, hrest.known_prefix.subset hknown, hresolves⟩, ih⟩
  | new hresolves _ hinside hrest _ ih' =>
    refine List.forall_mem_cons.2 ⟨⟨_, hrest.known_prefix.subset ?_, hresolves⟩, ih'⟩
    exact hinside.known_prefix.subset (by simp)

/-- Whatever a source includes that is met is met as well. -/
theorem closed (h : r.Reads s found l met) :
    ∀ t ∈ met, t ∈ found ∨ ∀ u, r.Includes t u → u ∈ met := by
  induction h with
  | nil => exact fun t ht => .inl ht
  | old _ _ _ ih => exact ih
  | @new s t found inner met i l _ _ hinside hrest ih ih' =>
    have hinner := hrest.known_prefix.subset
    intro u hu
    rcases ih' u hu with hu | hu
    · rcases ih u hu with hu | hu
      · rcases List.mem_append.1 hu with hu | hu
        · exact .inl hu
        · rw [List.mem_singleton.1 hu]
          refine .inr fun v ⟨j, hj, hv⟩ => hinner ?_
          obtain ⟨v', hv', hj⟩ := hinside.mem_of_include j hj
          rw [hv] at hj
          cases hj
          exact hv'
      · exact .inr fun v hv => hinner (hu v hv)
    · exact .inr hu

theorem reached (h : r.Reads s found l met) (hl : l ⊆ s.includes) :
    ∀ t ∈ met, t ∈ found ∨ TransGen r.Includes s t := by
  induction h with
  | nil => exact fun t ht => .inl ht
  | old _ _ _ ih => exact ih (List.cons_subset.1 hl).2
  | @new s t found inner met i l hresolves _ _ _ ih ih' =>
    obtain ⟨hi, hl⟩ := List.cons_subset.1 hl
    have hst : r.Includes s t := ⟨i, hi, hresolves⟩
    intro u hu
    rcases ih' hl u hu with hu | hu
    · rcases ih (List.Subset.refl _) u hu with hu | hu
      · rcases List.mem_append.1 hu with hu | hu
        · exact .inl hu
        · rw [List.mem_singleton.1 hu]
          exact .inr (.single hst)
      · exact .inr (.head hst hu)
    · exact .inr hu

/-- From nothing a reader meets what the source reaches through includes, each once. -/
theorem submodules (h : r.Reads s [] s.includes met) : r.Submodules s met where
  nodup := (h.keeps_found ⟨by simp, by simp⟩).nodup
  mem_iff t := by
    refine ⟨fun ht => (h.reached (List.Subset.refl _) t ht).resolve_left (by simp), fun ht => ?_⟩
    induction ht with
    | single hst =>
      obtain ⟨i, hi, hst⟩ := hst
      obtain ⟨t, ht, hi⟩ := h.mem_of_include i hi
      rw [hst] at hi
      cases hi
      exact ht
    | tail _ htu ih => exact (h.closed _ ih).resolve_left (by simp) _ htu

end Reads

/-- Where all includes lead somewhere, reading comes to an end: with each source that is met there are
fewer that are not known. -/
theorem Resolves.exists_reads (h : r.Resolves) (n : Nat) : ∀ (s : Source) (found : List Source)
    (l : List Include), s ∈ r.sources → l ⊆ s.includes → r.Found found → r.size ≤ n + found.length →
      ∃ met, r.Reads s found l met := by
  induction n with
  | zero =>
    intro s found l hs hl hfound hle
    -- all sources are known
    induction l with
    | nil => exact ⟨found, .nil⟩
    | cons i l ih =>
      obtain ⟨hi, hl⟩ := List.cons_subset.1 hl
      obtain ⟨t, ht⟩ := h.includes s hs i hi
      obtain ⟨met, hmet⟩ := ih hl
      refine ⟨met, .old ht (by_contra fun hunknown => ?_) hmet⟩
      have := (hfound.concat (mem_of_resolveInclude ht) hunknown).length_le
      simp at this
      omega
  | succ n ihn =>
    intro s found l hs hl hfound hle
    induction l generalizing found with
    | nil => exact ⟨found, .nil⟩
    | cons i l ih =>
      obtain ⟨hi, hl⟩ := List.cons_subset.1 hl
      obtain ⟨t, ht⟩ := h.includes s hs i hi
      by_cases hknown : t ∈ found
      · obtain ⟨met, hmet⟩ := ih found hl hfound hle
        exact ⟨met, .old ht hknown hmet⟩
      · have hmem := mem_of_resolveInclude ht
        have hfound' := hfound.concat hmem hknown
        obtain ⟨inner, hinner⟩ := ihn t _ t.includes hmem (List.Subset.refl _) hfound'
          (by simp; omega)
        have hlength := hinner.known_prefix.length_le
        obtain ⟨met, hmet⟩ := ih inner hl (hinner.keeps_found hfound') (by simp at hlength; omega)
        exact ⟨met, .new ht hknown hinner hmet⟩

/-! ## Gathering -/

theorem Opens.known_prefix (h : r.Opens pending found subs) : found <+: subs := by
  induction h with
  | done => exact List.prefix_refl _
  | next _ _ ih => exact (List.prefix_append _ _).trans ih

/-- Sources that include nothing are opened without effect. -/
theorem Opens.eq_of_flat (h : r.Opens pending found subs) (hflat : ∀ t ∈ pending, t.includes = []) :
    subs = found := by
  induction h with
  | done => rfl
  | @next including pending found new subs hmet _ ih =>
    rw [List.forall_mem_cons] at hflat
    rw [hflat.1, List.reverse_nil] at hmet
    cases hmet
    simpa using ih (by simpa using hflat.2)

/-- Where every include leads to something new, all of it is met in turn. -/
theorem Meets.map_ok {new : List Source} (h : r.Meets s found l new)
    (hfound : ∀ t ∈ found, .ok t ∉ l.map (r.resolveInclude s))
    (hnodup : (l.map (r.resolveInclude s)).Nodup) : new.map .ok = l.map (r.resolveInclude s) := by
  induction h with
  | nil => rfl
  | old hresolves hknown _ _ => exact absurd (by simp [hresolves]) (hfound _ hknown)
  | @new found i l t new hresolves _ _ ih =>
    rw [List.map_cons, List.nodup_cons] at hnodup
    rw [List.map_cons, List.map_cons, hresolves, ih (fun u hu hmem => ?_) hnodup.2]
    rcases List.mem_append.1 hu with hu | hu
    · exact hfound u hu (List.mem_cons_of_mem _ hmem)
    · rw [List.mem_singleton.1 hu, ← hresolves] at hmem
      exact hnodup.1 hmem

/-- The submodules that a module includes itself come first, the last include first, and they are all
if none of them includes anything. -/
theorem Opens.direct (h : r.Opens [s] [] subs) : ∃ new rest, r.Meets s [] s.includes.reverse new ∧
    subs = new ++ rest ∧ ((∀ t ∈ new, t.includes = []) → rest = []) ∧
    ((s.includes.map (r.resolveInclude s)).Nodup →
      new.map .ok = (s.includes.map (r.resolveInclude s)).reverse) := by
  cases h with
  | @next _ _ _ new _ hmet hrest =>
    obtain ⟨rest, rfl⟩ := hrest.known_prefix
    refine ⟨new, rest, hmet, rfl, fun hflat => ?_, fun hnodup => ?_⟩
    · have heq := hrest.eq_of_flat (by simpa using hflat)
      simpa using heq
    · rw [← List.map_reverse]
      refine hmet.map_ok (by simp) ?_
      rwa [List.map_reverse, List.nodup_reverse]

/-! ## The two orders -/

/-- Where no source includes more than one, there is one way to go. -/
theorem Opens.eq_read (h : r.Opens [s] found subs) (hread : r.Reads s found s.includes met)
    (hone : ∀ t ∈ s :: subs, t.includes.length ≤ 1) : subs = met := by
  generalize hpending : [s] = pending at h
  induction h generalizing s with
  | done => cases hpending
  | @next including pending found new subs hmet hrest ih =>
    obtain ⟨rfl, rfl⟩ := List.cons.inj hpending
    have hlength := hone s List.mem_cons_self
    rcases hincludes : s.includes with _ | ⟨i, _ | ⟨j, l⟩⟩
    · rw [hincludes] at hmet hread
      cases hmet
      cases hread
      cases hrest
      simp
    · rw [hincludes, List.reverse_singleton] at hmet
      rw [hincludes] at hread
      cases hmet with
      | old hresolves hknown hnil =>
        cases hnil
        cases hrest
        cases hread with
        | old _ _ hnil =>
          cases hnil
          simp
        | new hresolves' hunknown _ _ =>
          rw [hresolves] at hresolves'
          cases hresolves'
          exact absurd hknown hunknown
      | @new _ _ _ t _ hresolves hunknown hnil =>
        cases hnil
        cases hread with
        | old hresolves' hknown _ =>
          rw [hresolves] at hresolves'
          cases hresolves'
          exact absurd hknown hunknown
        | new hresolves' _ hinside hnil =>
          rw [hresolves] at hresolves'
          cases hresolves'
          cases hnil
          refine ih hinside (List.forall_mem_cons.2 ⟨?_, fun u hu => hone u (by simp [hu])⟩) rfl
          exact hone t (List.mem_cons_of_mem _ (hrest.known_prefix.subset (by simp)))
    · rw [hincludes] at hlength
      simp at hlength

/-- What is known is on the way to the source, so none of it is included again. -/
theorem not_known_of_acyclic (hacyclic : ∀ t, ¬ TransGen r.Includes t t)
    (htrail : ∀ t ∈ found, ReflTransGen r.Includes t s) (ht : r.Includes s t) : t ∉ found :=
  fun hknown => hacyclic s (.head' ht (htrail t hknown))

/-- Of several includes the last is met first, and it leads elsewhere than the first. -/
theorem Meets.head_ne {i k : Include} {new : List Source} (h : r.Meets s found s.includes.reverse new)
    (hincludes : s.includes = i :: (l ++ [k])) (hnodup : (s.includes.map (r.resolveInclude s)).Nodup)
    (hunknown : ∀ t, r.Includes s t → t ∉ found) :
    ∃ u rest, new = u :: rest ∧ r.resolveInclude s i ≠ .ok u := by
  rw [hincludes, List.reverse_cons, List.reverse_append, List.reverse_singleton,
    List.singleton_append, List.cons_append] at h
  rw [hincludes, List.map_cons, List.nodup_cons] at hnodup
  cases h with
  | @old _ _ _ u _ hresolves hknown _ =>
    exact absurd hknown (hunknown u ⟨k, by simp [hincludes], hresolves⟩)
  | @new _ _ _ u rest hresolves _ _ =>
    refine ⟨u, rest, rfl, fun hi => hnodup.1 ?_⟩
    rw [hi, ← hresolves, List.map_append]
    simp

/-- Where the two orders are the same, no source includes more than one: of the first that did, the last
include would be met before the first. -/
theorem Opens.length_includes_le (h : r.Opens [s] found subs) (hread : r.Reads s found s.includes subs)
    (hacyclic : ∀ t, ¬ TransGen r.Includes t t) (htrail : ∀ t ∈ found, ReflTransGen r.Includes t s)
    (hnodup : ∀ t ∈ s :: subs, (t.includes.map (r.resolveInclude t)).Nodup) :
    s.includes.length ≤ 1 ∧ ∀ t ∈ subs, t ∈ found ∨ t.includes.length ≤ 1 := by
  generalize hpending : [s] = pending at h
  induction h generalizing s with
  | done => cases hpending
  | @next including pending found new subs hmet hrest ih =>
    obtain ⟨rfl, rfl⟩ := List.cons.inj hpending
    have hunknown : ∀ t, r.Includes s t → t ∉ found := fun t => not_known_of_acyclic hacyclic htrail
    rcases hincludes : s.includes with _ | ⟨i, l⟩
    · rw [hincludes] at hmet hread
      cases hmet
      cases hrest
      refine ⟨by simp, fun t ht => .inl (by simpa using ht)⟩
    · rw [hincludes] at hread
      cases hread with
      | @old _ t _ _ _ _ hresolves hknown _ =>
        exact absurd hknown (hunknown t ⟨i, by simp [hincludes], hresolves⟩)
      | @new _ t _ inner _ _ _ hresolves _ hinside hafter =>
        have ht : r.Includes s t := ⟨i, by simp [hincludes], hresolves⟩
        rcases List.eq_nil_or_concat l with rfl | ⟨l, k, rfl⟩
        · -- one include: the order is that of the source that it leads to
          rw [hincludes, List.reverse_singleton] at hmet
          cases hafter
          cases hmet with
          | @old _ _ _ u _ hresolves' hknown _ =>
            exact absurd hknown (hunknown u ⟨i, by simp [hincludes], hresolves'⟩)
          | new hresolves' _ hnil =>
            rw [hresolves] at hresolves'
            cases hresolves'
            cases hnil
            have hmem : t ∈ subs := hrest.known_prefix.subset (by simp)
            obtain ⟨hlength, hall⟩ := ih hinside
              (fun u hu => (List.mem_append.1 hu).elim (fun hu => (htrail u hu).tail ht)
                fun hu => by rw [List.mem_singleton.1 hu])
              (List.forall_mem_cons.2 ⟨hnodup t (List.mem_cons_of_mem _ hmem), fun u hu =>
                hnodup u (List.mem_cons_of_mem _ hu)⟩) rfl
            refine ⟨by simp, fun u hu => ?_⟩
            rcases hall u hu with hu | hu
            · rcases List.mem_append.1 hu with hu | hu
              · exact .inl hu
              · rw [List.mem_singleton.1 hu]
                exact .inr hlength
            · exact .inr hu
        · -- several: behind what is known stand two different sources
          rw [List.concat_eq_append] at hincludes
          obtain ⟨u, rest, rfl, hu⟩ := hmet.head_ne hincludes (hnodup s List.mem_cons_self) hunknown
          obtain ⟨more, hsubs⟩ := hrest.known_prefix
          obtain ⟨more', hsubs'⟩ := hinside.known_prefix.trans hafter.known_prefix
          rw [← hsubs', List.append_assoc, List.append_assoc, List.append_cancel_left_eq] at hsubs
          obtain rfl : u = t := (List.cons.inj hsubs).1
          exact absurd hresolves hu

/-- Where no source names an include twice, the submodules of a module come in the order in which a
reader meets them exactly if none of the sources has more than one include. -/
theorem Opens.eq_read_iff (h : r.Opens [s] [] subs) (hread : r.Reads s [] s.includes met)
    (hacyclic : ∀ t, ¬ TransGen r.Includes t t)
    (hnodup : ∀ t ∈ s :: subs, (t.includes.map (r.resolveInclude t)).Nodup) :
    subs = met ↔ ∀ t ∈ s :: subs, t.includes.length ≤ 1 := by
  refine ⟨?_, h.eq_read hread⟩
  rintro rfl
  obtain ⟨hlength, hall⟩ := h.length_includes_le hread hacyclic (by simp) hnodup
  exact List.forall_mem_cons.2 ⟨hlength, fun t ht => (hall t ht).resolve_left (by simp)⟩

end Registry

end YangSchema
