import YangSchema.Proofs.LinkageOrder

/-!
# Registration

A registry comes of a series of calls that register one source each (`Registry.after`); a call with a
key that the registry has fails and changes nothing.  So the registry holds, for every key, the source
that was called for first (`registered_iff`), and it depends on which sources those are, not on their
order (`after_eq_of_registered`).

A source that is asked for without a revision is looked for from the undated key of its name on, as
long as the name is the same (`scan`).  Names come first in the order of keys, so this reads exactly
the sources of that name, whatever other names begin alike, and the last of them is the latest.
-/

namespace YangSchema

namespace Registry

variable {r r' : Registry} {s t : Source} {calls calls' : List Source} {n : String}

theorem get?_eq_some {k : SourceKey} : r.get? k = some s ↔ s ∈ r.sources ∧ s.key = k := by
  constructor
  · intro h
    exact ⟨List.mem_of_find?_eq_some h, by simpa using List.find?_some h⟩
  · rintro ⟨hs, rfl⟩
    cases hget : r.get? s.key with
    | none => exact absurd rfl (get?_eq_none.1 hget s hs)
    | some t =>
      have hkey : t.key = s.key := by simpa using List.find?_some hget
      rw [eq_of_key_eq (List.mem_of_find?_eq_some hget) hs hkey]

/-! ## Registering -/

theorem register_fails : (∃ f, r.register s = .error f) ↔ ∃ t ∈ r.sources, t.key = s.key := by
  unfold register
  cases hget : r.get? s.key with
  | none => simpa using get?_eq_none.1 hget
  | some t => simpa using ⟨t, get?_eq_some.1 hget⟩

theorem mem_of_register (h : r.register s = .ok r') : t ∈ r'.sources ↔ t ∈ r.sources ∨ t = s := by
  have hnew : ∀ t ∈ r.sources, compare s.key t.key ≠ .eq := by
    intro t ht heq
    obtain ⟨f, hf⟩ := register_fails.2 ⟨t, ht, (Std.LawfulEqOrd.eq_of_compare heq).symm⟩
    rw [h] at hf
    cases hf
  unfold register at h
  split at h
  · cases h
  · cases h
    rw [(perm_insertBy hnew).mem_iff, List.mem_cons, or_comm]

/-- The registry after a call; a call that fails leaves it as it was. -/
def afterCall (r : Registry) (s : Source) : Registry := (r.register s).toOption.getD r

/-- The registry after a series of calls. -/
def after (calls : List Source) : Registry := calls.foldl afterCall empty

/-- One of the calls has registered `s`. -/
def Registered (calls : List Source) (s : Source) : Prop :=
  ∃ before rest r, calls = before ++ s :: rest ∧ (after before).register s = .ok r

theorem after_snoc : after (calls ++ [s]) = (after calls).afterCall s := List.foldl_append ..

theorem registered_snoc : Registered (calls ++ [s]) t ↔
    Registered calls t ∨ t = s ∧ ∃ r, (after calls).register s = .ok r := by
  constructor
  · rintro ⟨before, rest, r, hcalls, hr⟩
    rcases List.eq_nil_or_concat' rest with rfl | ⟨rest, x, rfl⟩
    · obtain ⟨rfl, hs⟩ := List.append_inj' hcalls rfl
      cases hs
      exact .inr ⟨rfl, r, hr⟩
    · rw [← List.cons_append, ← List.append_assoc] at hcalls
      exact .inl ⟨before, rest, r, (List.append_inj' hcalls rfl).1, hr⟩
  · rintro (⟨before, rest, r, rfl, hr⟩ | ⟨rfl, r, hr⟩)
    · exact ⟨before, rest ++ [s], r, by simp, hr⟩
    · exact ⟨calls, [], r, rfl, hr⟩

/-- The registry holds the sources that were registered. -/
theorem mem_after : t ∈ (after calls).sources ↔ Registered calls t := by
  induction calls using List.reverseRecOn with
  | nil => simp [after, empty, Registered]
  | append_singleton calls s ih =>
    rw [after_snoc, registered_snoc, ← ih, afterCall]
    cases hr : (after calls).register s with
    | error f => simp [Except.toOption]
    | ok r => simpa [Except.toOption] using mem_of_register hr

theorem exists_registered {k : SourceKey} :
    (∃ t, Registered calls t ∧ t.key = k) ↔ ∃ t ∈ calls, t.key = k := by
  induction calls using List.reverseRecOn with
  | nil => simp [Registered]
  | append_singleton calls s ih =>
    constructor
    · rintro ⟨t, ht, hk⟩
      rcases registered_snoc.1 ht with ht | ⟨rfl, -⟩
      · obtain ⟨u, hu, hk⟩ := ih.1 ⟨t, ht, hk⟩
        exact ⟨u, by simp [hu], hk⟩
      · exact ⟨t, by simp, hk⟩
    · rintro ⟨t, ht, rfl⟩
      by_cases hold : ∃ u, Registered calls u ∧ u.key = t.key
      · obtain ⟨u, hu, hk⟩ := hold
        exact ⟨u, registered_snoc.2 (.inl hu), hk⟩
      · -- a source with a new key is the one that was called for last
        have hts : t = s := by
          refine (List.mem_append.1 ht).elim (fun ht => absurd (ih.2 ⟨t, ht, rfl⟩) hold) ?_
          exact List.mem_singleton.1
        subst hts
        cases hr : (after calls).register t with
        | ok r => exact ⟨t, registered_snoc.2 (.inr ⟨rfl, r, hr⟩), rfl⟩
        | error f =>
          obtain ⟨u, hu, hk⟩ := register_fails.1 ⟨f, hr⟩
          exact absurd ⟨u, mem_after.1 hu, hk⟩ hold

/-- Of the calls with one key, the first registers its source. -/
theorem registered_iff : Registered calls t ↔ calls.find? (·.key == t.key) = some t := by
  rw [List.find?_eq_some_iff_append]
  have hsucceeds : ∀ before, (∃ r, (after before).register t = .ok r) ↔
      ∀ u ∈ before, u.key ≠ t.key := by
    intro before
    have hfails : (∃ f, (after before).register t = .error f) ↔ ∃ u ∈ before, u.key = t.key := by
      simp only [register_fails, mem_after, exists_registered]
    cases hr : (after before).register t with
    | ok r => simpa [hr] using hfails
    | error f => simpa [hr] using hfails
  constructor
  · rintro ⟨before, rest, r, rfl, hr⟩
    exact ⟨by simp, before, rest, rfl, by simpa using (hsucceeds before).1 ⟨r, hr⟩⟩
  · rintro ⟨-, before, rest, rfl, hnew⟩
    obtain ⟨r, hr⟩ := (hsucceeds before).2 (by simpa using hnew)
    exact ⟨before, rest, r, rfl, hr⟩

theorem registered_of_nodup (h : (calls.map Source.key).Nodup) : Registered calls s ↔ s ∈ calls := by
  constructor
  · rintro ⟨before, rest, r, rfl, -⟩
    simp
  · intro hs
    obtain ⟨t, ht, hkey⟩ := exists_registered.2 ⟨s, hs, rfl⟩
    have htmem : t ∈ calls := List.mem_of_find?_eq_some (registered_iff.1 ht)
    rwa [List.inj_on_of_nodup_map h htmem hs hkey] at ht

/-- The sources that were registered make the registry, whatever the order of the calls. -/
theorem after_eq_of_registered (h : ∀ s, Registered calls s ↔ Registered calls' s) :
    after calls = after calls' := by
  have hperm : (after calls).sources.Perm (after calls').sources :=
    (List.perm_ext_iff_of_nodup nodup_sources nodup_sources).2 fun s => by
      rw [mem_after, mem_after, h]
  exact Lists.eq ⟨(after calls).ordered.nodup_keys, .refl _⟩
    ⟨(after calls').ordered.nodup_keys, .refl _⟩ hperm

/-! ## Resolving -/

theorem resolve_eq_ok {v : Revision} :
    r.resolve n (some v) = .ok s ↔ s ∈ r.sources ∧ s.name = n ∧ s.revision = some v := by
  have hkey : s.key = ⟨n, some v⟩ ↔ s.name = n ∧ s.revision = some v := SourceKey.mk.injEq .. ▸ .rfl
  rw [← hkey, ← get?_eq_some, resolve]
  cases hget : r.get? ⟨n, some v⟩ <;> simp

theorem resolve_latest : r.resolve n none = .ok s ↔ (r.named n).getLast? = some s := by
  rw [resolve]
  cases hget : (r.named n).getLast? <;> simp

theorem mem_named : s ∈ r.named n ↔ s ∈ r.sources ∧ s.name = n := by
  simp [named]

/-- Sources of one name are in the order of their revisions. -/
theorem compare_key (h : s.name = t.name) : compare s.key t.key = compare s.revision t.revision := by
  show (compare s.name t.name).then (compare s.revision t.revision) = _
  rw [h, Std.ReflOrd.compare_self]
  rfl

theorem getLast?_named : (r.named n).getLast? = some s ↔ s ∈ r.sources ∧ s.name = n ∧
    ∀ t ∈ r.sources, t.name = n → t ≠ s → Revision.Before t.revision s.revision := by
  have hordered : Ordered Source.key (r.named n) := List.Pairwise.filter _ r.ordered
  rw [hordered.getLast?_eq_some, mem_named, and_assoc]
  refine and_congr_right fun _ => and_congr_right fun hs => ?_
  subst hs
  simp only [mem_named, and_imp]
  refine forall₃_congr fun t _ ht => ?_
  rw [compare_key ht, Revision.compare_eq_lt]

theorem exists_latest : (∃ s, r.resolve n none = .ok s) ↔ ∃ s ∈ r.sources, s.name = n := by
  simp only [resolve_latest, ← mem_named]
  rcases List.eq_nil_or_concat' (r.named n) with hnil | ⟨l, t, hsnoc⟩
  · simp [hnil]
  · simp [hsnoc]

/-! ## Scanning -/

/-- The sources from the undated key of the name on, as long as they have that name. -/
def scan (r : Registry) (n : String) : List Source :=
  (r.sources.dropWhile fun s => compare s.key ⟨n, none⟩ == .lt).takeWhile (·.name == n)

/-- A source is before the undated key of a name if its own name is before that name. -/
theorem compare_undated : compare s.key ⟨n, none⟩ = .lt ↔ compare s.name n = .lt := by
  show (compare s.name n).then (compare s.revision none) = .lt ↔ _
  have hrevision : compare s.revision none ≠ .lt := by
    rw [ne_eq, Revision.compare_eq_lt]
    cases s.revision <;> exact not_false
  cases compare s.name n <;> simp [hrevision]

theorem name_le_of_key_lt (h : compare s.key t.key = .lt) : (compare s.name t.name).isLE := by
  have hthen : (compare s.name t.name).then (compare s.revision t.revision) = .lt := h
  cases hname : compare s.name t.name with
  | gt => rw [hname] at hthen; cases hthen
  | lt | eq => rfl

theorem takeWhile_name_eq_filter {l : List Source} (hl : Ordered Source.key l)
    (hfrom : ∀ s ∈ l, compare s.name n ≠ .lt) :
    l.takeWhile (·.name == n) = l.filter (·.name == n) := by
  induction l with
  | nil => rfl
  | cons s l ih =>
    obtain ⟨hs, hl⟩ := List.pairwise_cons.1 hl
    by_cases hname : s.name = n
    · have htail := ih hl fun t ht => hfrom t (List.mem_cons_of_mem s ht)
      simp [hname, htail]
    · -- behind a later name there are only later names
      have hlater : ∀ t ∈ l, t.name ≠ n := by
        rintro t ht rfl
        have hle := name_le_of_key_lt (hs t ht)
        have hge := hfrom s List.mem_cons_self
        cases hc : compare s.name t.name with
        | lt => exact hge hc
        | eq => exact hname (Std.LawfulEqOrd.eq_of_compare hc)
        | gt => rw [hc] at hle; cases hle
      simpa [hname] using hlater

/-- The scan reads the sources of the name and no others. -/
theorem scan_eq_named : r.scan n = r.named n := by
  unfold scan named
  have hordered := r.ordered
  generalize r.sources = l at hordered ⊢
  induction l with
  | nil => rfl
  | cons s l ih =>
    obtain ⟨hs, hl⟩ := List.pairwise_cons.1 hordered
    by_cases hlt : compare s.name n = .lt
    · have hname : s.name ≠ n := by
        rintro rfl
        rw [Std.ReflOrd.compare_self] at hlt
        cases hlt
      rw [List.dropWhile_cons_of_pos (by simpa using compare_undated.2 hlt), ih hl,
        List.filter_cons_of_neg (by simpa using hname)]
    · rw [List.dropWhile_cons_of_neg (by simpa using mt compare_undated.1 hlt)]
      refine takeWhile_name_eq_filter hordered fun t ht => ?_
      rcases List.mem_cons.1 ht with rfl | ht
      · exact hlt
      · exact fun hlt' => hlt (Std.TransCmp.lt_of_isLE_of_lt (name_le_of_key_lt (hs t ht)) hlt')

/-- What a series of calls leaves in the registry, and what the registry answers: a call fails exactly
if a source of the same name and revision is there; with a revision, the source of that name and
revision is found; without one, the latest of the name, read by a scan of the keys; and which sources
were registered decides it all, not in which order. -/
theorem after_answers (calls : List Source) :
    (∀ s, ((∃ f, (after calls).register s = .error f) ↔
        ∃ t ∈ (after calls).sources, t.name = s.name ∧ t.revision = s.revision) ∧
      ((∃ f, (after calls).register s = .error f) → after (calls ++ [s]) = after calls)) ∧
    (∀ n v s, (after calls).resolve n (some v) = .ok s ↔
      Registered calls s ∧ s.name = n ∧ s.revision = some v) ∧
    (∀ n s, (after calls).resolve n none = .ok s ↔ Registered calls s ∧ s.name = n ∧
      ∀ t, Registered calls t → t.name = n → t ≠ s → Revision.Before t.revision s.revision) ∧
    (∀ n, (∃ s, (after calls).resolve n none = .ok s) ↔ ∃ s, Registered calls s ∧ s.name = n) ∧
    (∀ n, (after calls).scan n = (after calls).named n) ∧
    (∀ calls', (∀ s, Registered calls' s ↔ Registered calls s) → after calls' = after calls) ∧
    (∀ calls', (calls.map Source.key).Nodup → calls'.Perm calls →
      after calls' = after calls ∧ ∀ s ∈ calls, Registered calls' s) := by
  refine ⟨fun s => ⟨?_, ?_⟩, fun n v s => ?_, fun n s => ?_, fun n => ?_, fun n => scan_eq_named,
    fun calls' h => after_eq_of_registered h, fun calls' hkeys hperm => ?_⟩
  · rw [register_fails]
    exact exists_congr fun t => and_congr_right fun _ => SourceKey.mk.injEq .. ▸ .rfl
  · rintro ⟨f, hf⟩
    rw [after_snoc, afterCall, hf]
    rfl
  · rw [resolve_eq_ok, mem_after]
  · rw [resolve_latest, getLast?_named]
    simp only [mem_after]
  · simp only [exists_latest, mem_after]
  · have hkeys' : (calls'.map Source.key).Nodup := (hperm.map _).nodup_iff.2 hkeys
    have hsame : ∀ s, Registered calls' s ↔ Registered calls s := fun s => by
      rw [registered_of_nodup hkeys', registered_of_nodup hkeys, hperm.mem_iff]
    exact ⟨after_eq_of_registered hsame, fun s hs =>
      (hsame s).2 ((registered_of_nodup hkeys).2 hs)⟩

/-! ## An example -/

/-- A source that states no more than its name and a revision. -/
def ofKey (k : SourceKey) : Source where
  label := k.render ++ ".yang"
  kind := .module
  name := k.name
  namespaceUri := some ("urn:" ++ k.name)
  parent := none
  ownPrefix := k.name
  revision := k.revision
  header := {}
  imports := []
  includes := []
  root := { keyword := .word .moduleWord, argument := some k.name }

/-- Two revisions of a module, and a module whose name goes on. -/
def similarNames : List Source :=
  [ofKey ⟨"m", some ⟨"2024-05-01", by decide⟩⟩, ofKey ⟨"ma", some ⟨"2025-05-01", by decide⟩⟩,
    ofKey ⟨"m", none⟩]

/-- The dated revision is the latest, in whatever order the three are registered. -/
theorem after_answers_similarNames : (similarNames.map Source.key).Nodup ∧
    similarNames.reverse.Perm similarNames ∧
    after similarNames.reverse = after similarNames ∧
    ∃ s, (after similarNames.reverse).resolve "m" none = .ok s ∧ s.label = "m@2024-05-01.yang" := by
  have hkeys : (similarNames.map Source.key).Nodup := by decide +kernel
  have hperm : similarNames.reverse.Perm similarNames := List.reverse_perm _
  have hafter := ((after_answers similarNames).2.2.2.2.2.2 _ hkeys hperm).1
  have hlatest : ((after similarNames).resolve "m" none).toOption.any fun s =>
      decide (s.label = "m@2024-05-01.yang") := by decide +kernel
  simp only [Option.any_eq_true, toOption_eq_some, decide_eq_true_eq] at hlatest
  exact ⟨hkeys, hperm, hafter, hafter ▸ hlatest⟩

end Registry

end YangSchema
