import YangSchema.Proofs.DeviationPolicy
import YangSchema.Serial

/-!
# What serial forms keep

Every identity, path and policy is read from its serial form again.  A matrix is written as rows: the
deviated modules in order, each with the modules that may deviate it, in order and each once, and no row
without any (`Canonical`).  Any rows are read, and give the one matrix that lists their pairs; so the
rows that are written are the same for all rows with these pairs.

A revision that is no date makes the whole form unreadable, wherever it stands (`Misdated`).
-/

namespace YangSchema

/-! ## Reading lists -/

section Lists

variable {α β γ : Type} {l : List α}

theorem mapM_map_eq_some {f : α → β} {g : β → Option γ} {k : α → γ} (h : ∀ a, g (f a) = some (k a))
    (l : List α) : (l.map f).mapM g = some (l.map k) := by
  induction l with
  | nil => rfl
  | cons a l ih =>
    rw [List.map_cons, List.mapM_cons, h, ih]
    rfl

theorem mapM_eq_none {f : α → Option β} {a : α} (ha : a ∈ l) (hnone : f a = none) :
    l.mapM f = none := by
  induction l with
  | nil => cases ha
  | cons b l ih =>
    rw [List.mapM_cons]
    rcases List.mem_cons.1 ha with rfl | ha
    · rw [hnone]
      rfl
    · rw [ih ha]
      cases f b <;> rfl

end Lists

/-! ## Identities and paths -/

theorem Revision.decode?_encode (r : Revision) : decode? r.encode = some r := by
  simp [encode, decode?, Value.text?, parse_text, Except.toOption]

theorem Value.optional?_encode (r : Option Revision) :
    ((r.map Revision.encode).getD .null).optional? Revision.decode? = some r := by
  cases r with
  | none => rfl
  | some r => exact congrArg (Option.map some) r.decode?_encode

theorem ModuleIdentity.decode?_encode (m : ModuleIdentity) : decode? m.encode = some m := by
  simp [encode, decode?, Value.fields?, Value.text?, Value.optional?_encode]

theorem QName.decode?_encode (q : QName) : decode? q.encode = some q := by
  simp [encode, decode?, Value.fields?, Value.text?, ModuleIdentity.decode?_encode]

theorem SchemaPath.decode?_encode (p : SchemaPath) : decode? p.encode = some p := by
  simp [encode, decode?, Value.fields?, Value.flag?, Value.list?,
    mapM_map_eq_some QName.decode?_encode]

/-! ## Rows -/

theorem DeviationPair.compare_eq_lt {p q : DeviationPair} : compare p q = .lt ↔
    compare p.target q.target = .lt ∨
      (p.target = q.target ∧ compare p.deviating q.deviating = .lt) := by
  have hpair : compare p q = .lt ↔ compare p.target q.target = .lt ∨
      (compare p.target q.target = .eq ∧ compare p.deviating q.deviating = .lt) :=
    Ordering.then_eq_lt
  rw [hpair, Std.LawfulEqOrd.compare_eq_iff_eq]

/-- Each first occurrence of a sorted list is smaller than those after it. -/
theorem ordered_eraseDups {κ : Type} [Ord κ] [DecidableEq κ] [Std.TransOrd κ] [Std.LawfulEqOrd κ] :
    ∀ {l : List κ}, (l.Pairwise fun a b => (compare a b).isLE) → Ordered id l.eraseDups
  | [], _ => .nil
  | a :: l, h => by
    obtain ⟨ha, hl⟩ := List.pairwise_cons.1 h
    rw [List.eraseDups_cons]
    refine List.pairwise_cons.2 ⟨fun b hb => ?_, ordered_eraseDups (hl.filter _)⟩
    obtain ⟨hb, hne⟩ := List.mem_filter.1 (List.mem_eraseDups.1 hb)
    have hab := ha b hb
    cases hcmp : compare a b with
    | lt => exact hcmp
    | eq => simp [Std.LawfulEqOrd.eq_of_compare hcmp] at hne
    | gt => simp [hcmp] at hab
termination_by l => l.length
decreasing_by exact Nat.lt_succ_of_le (List.length_filter_le ..)

namespace DeviationMatrix

variable {m : DeviationMatrix} {t d : ModuleIdentity}
  {rows rows' : List (ModuleIdentity × List ModuleIdentity)}

/-- Some row says that `d` may deviate `t`. -/
def Listed (rows : List (ModuleIdentity × List ModuleIdentity)) (t d : ModuleIdentity) : Prop :=
  ∃ row ∈ rows, row.1 = t ∧ d ∈ row.2

/-- The deviated modules in order, each in one row, and each with one module or more, in order and each of
them once. -/
structure Canonical (rows : List (ModuleIdentity × List ModuleIdentity)) : Prop where
  targets : Ordered Prod.fst rows
  deviating : ∀ row ∈ rows, Ordered id row.2
  nonempty : ∀ row ∈ rows, row.2 ≠ []

theorem allows_iff : m.allows t d = true ↔ ⟨t, d⟩ ∈ m.pairs := List.contains_iff_mem

theorem mem_targets : t ∈ m.targets ↔ ∃ p ∈ m.pairs, p.target = t := by
  simp [targets, List.mem_eraseDups]

theorem mem_deviatingModules : d ∈ m.deviatingModules t ↔ m.allows t d = true := by
  rw [allows_iff, deviatingModules, List.mem_map]
  constructor
  · rintro ⟨p, hp, rfl⟩
    obtain ⟨hmem, ht⟩ := List.mem_filter.1 hp
    obtain rfl : p.target = t := eq_of_beq ht
    exact hmem
  · intro hp
    exact ⟨_, List.mem_filter.2 ⟨hp, beq_self_eq_true t⟩, rfl⟩

theorem ordered_targets (m : DeviationMatrix) : Ordered id m.targets := by
  refine ordered_eraseDups (List.pairwise_map.2 (m.ordered.imp fun {p q} hpq => ?_))
  have hcmp : compare p q = .lt := hpq
  rcases DeviationPair.compare_eq_lt.1 hcmp with hlt | ⟨heq, -⟩
  · simp [hlt]
  · simp [heq]

theorem ordered_deviatingModules (m : DeviationMatrix) (t : ModuleIdentity) :
    Ordered id (m.deviatingModules t) := by
  refine List.pairwise_map.2 ((m.ordered.filter _).imp_of_mem fun {p q} hp hq hpq => ?_)
  have hsame : p.target = q.target :=
    (eq_of_beq (List.mem_filter.1 hp).2).trans (eq_of_beq (List.mem_filter.1 hq).2).symm
  have hcmp : compare p q = .lt := hpq
  rcases DeviationPair.compare_eq_lt.1 hcmp with hlt | ⟨-, hlt⟩
  · rw [hsame, Std.ReflOrd.compare_self] at hlt
    cases hlt
  · exact hlt

theorem canonical_rows (m : DeviationMatrix) : Canonical m.rows where
  targets := List.pairwise_map.2 m.ordered_targets
  deviating := by
    intro row hrow
    obtain ⟨t, -, rfl⟩ := List.mem_map.1 hrow
    exact m.ordered_deviatingModules t
  nonempty := by
    intro row hrow
    obtain ⟨t, ht, rfl⟩ := List.mem_map.1 hrow
    obtain ⟨p, hp, rfl⟩ := mem_targets.1 ht
    exact List.ne_nil_of_mem (mem_deviatingModules.2 (allows_iff.2 hp))

theorem listed_rows : Listed m.rows t d ↔ m.allows t d = true := by
  constructor
  · rintro ⟨row, hrow, rfl, hd⟩
    obtain ⟨t, -, rfl⟩ := List.mem_map.1 hrow
    exact mem_deviatingModules.1 hd
  · intro h
    have ht : t ∈ m.targets := mem_targets.2 ⟨_, allows_iff.1 h, rfl⟩
    exact ⟨_, List.mem_map.2 ⟨t, ht, rfl⟩, rfl, mem_deviatingModules.2 h⟩

theorem Canonical.mem_iff (h : Canonical rows) {row : ModuleIdentity × List ModuleIdentity}
    (hrow : row ∈ rows) : d ∈ row.2 ↔ Listed rows row.1 d := by
  constructor
  · exact fun hd => ⟨row, hrow, rfl, hd⟩
  · rintro ⟨row', hrow', htarget, hd⟩
    obtain rfl : row' = row := List.inj_on_of_nodup_map h.targets.nodup_keys hrow' hrow htarget
    exact hd

theorem Canonical.mem_of_listed (h : Canonical rows) (h' : Canonical rows')
    (hlisted : ∀ t d, Listed rows t d ↔ Listed rows' t d) {row : ModuleIdentity × List ModuleIdentity}
    (hrow : row ∈ rows) : row ∈ rows' := by
  obtain ⟨d, hd⟩ := List.exists_mem_of_ne_nil _ (h.nonempty row hrow)
  obtain ⟨row', hrow', htarget, -⟩ := (hlisted row.1 d).1 ((h.mem_iff hrow).1 hd)
  have hsame : row'.2 = row.2 := (h'.deviating _ hrow').eq_of_mem_iff (h.deviating _ hrow) fun d => by
    rw [h.mem_iff hrow, h'.mem_iff hrow', hlisted, htarget]
  exact Prod.ext htarget hsame ▸ hrow'

/-- Rows in canonical form are determined by their pairs. -/
theorem Canonical.eq_of_listed (h : Canonical rows) (h' : Canonical rows')
    (hlisted : ∀ t d, Listed rows t d ↔ Listed rows' t d) : rows = rows' :=
  h.targets.eq_of_mem_iff h'.targets fun _ => ⟨h.mem_of_listed h' hlisted,
    h'.mem_of_listed h fun t d => (hlisted t d).symm⟩

/-- Two matrices that allow the same are one. -/
theorem eq_of_allows {m' : DeviationMatrix} (h : ∀ t d, m.allows t d = m'.allows t d) : m = m' :=
  ext (m.ordered.eq_of_mem_iff m'.ordered fun p => by
    rw [← allows_iff (t := p.target) (d := p.deviating), h, allows_iff])

/-- Every matrix is built by insertions. -/
theorem ofPairs_pairs (m : DeviationMatrix) : ofPairs m.pairs = m :=
  ext ((ofPairs m.pairs).ordered.eq_of_mem_iff m.ordered fun _ => mem_ofPairs)

/-! ### Reading rows -/

theorem decodeRow?_encodeRow (row : ModuleIdentity × List ModuleIdentity) :
    decodeRow? (encodeRow row) = some (row.2.map (DeviationPair.mk row.1)) := by
  simp [encodeRow, decodeRow?, Value.fields?, Value.list?, ModuleIdentity.decode?_encode,
    mapM_map_eq_some ModuleIdentity.decode?_encode]

/-- Rows are read to the matrix of their pairs. -/
theorem decode?_rows (rows : List (ModuleIdentity × List ModuleIdentity)) :
    ∃ m, decode? (.list (rows.map encodeRow)) = some m ∧
      ∀ t d, m.allows t d = true ↔ Listed rows t d := by
  refine ⟨ofPairs (rows.flatMap fun row => row.2.map (DeviationPair.mk row.1)), ?_, fun t d => ?_⟩
  · simp [decode?, Value.list?, mapM_map_eq_some decodeRow?_encodeRow, List.flatMap]
  · rw [allows_iff, mem_ofPairs, List.mem_flatMap, Listed]
    simp [and_comm]

theorem decode?_encode (m : DeviationMatrix) : decode? m.encode = some m := by
  obtain ⟨m', hm', hallows⟩ := decode?_rows m.rows
  obtain rfl : m' = m := eq_of_allows fun t d => by
    rw [Bool.eq_iff_iff, hallows, listed_rows]
  exact hm'

end DeviationMatrix

theorem SupportedDeviations.decode?_encode (s : SupportedDeviations) : decode? s.encode = some s := by
  cases s with
  | all => rfl
  | restricted m => exact congrArg (Option.map restricted) m.decode?_encode

theorem BuildConfig.decode?_encode (c : BuildConfig) : decode? c.encode = some c := by
  simp [encode, decode?, Value.fields?, SupportedDeviations.decode?_encode]

/-! ## Revisions that are no dates -/

/-- What a value can be read as. -/
inductive Form where
  | revision
  | module
  | qname
  | path
  | row
  | matrix
  | supported
  | config

/-- The value cannot be read so. -/
def Form.Refuses : Form → Value → Prop
  | revision, v => Revision.decode? v = none
  | module, v => ModuleIdentity.decode? v = none
  | qname, v => QName.decode? v = none
  | path, v => SchemaPath.decode? v = none
  | row, v => DeviationMatrix.decodeRow? v = none
  | matrix, v => DeviationMatrix.decode? v = none
  | supported, v => SupportedDeviations.decode? v = none
  | config, v => BuildConfig.decode? v = none

/-- Where the value has a revision, or somewhere in it there is one, this is the text of no date. -/
inductive Misdated : Form → Value → Prop
  | revision {v : Value} (hnull : v ≠ .null) (hv : ∀ r : Revision, v ≠ .text r.text) :
      Misdated .revision v
  | module {v r : Value} {uri : Option Value}
      (hv : v.fields? ["namespace", "revision"] = some [uri, some r]) (hr : Misdated .revision r) :
      Misdated .module v
  | qname {v owner : Value} {name : Option Value}
      (hv : v.fields? ["module", "local_name"] = some [some owner, name])
      (howner : Misdated .module owner) : Misdated .qname v
  | path {v step : Value} {absolute : Option Value} {steps : List Value}
      (hv : v.fields? ["absolute", "steps"] = some [absolute, some (.list steps)])
      (hmem : step ∈ steps) (hstep : Misdated .qname step) : Misdated .path v
  | target {v target : Value} {deviating : Option Value}
      (hv : v.fields? ["target", "deviating"] = some [some target, deviating])
      (htarget : Misdated .module target) : Misdated .row v
  | deviating {v m : Value} {target : Option Value} {ms : List Value}
      (hv : v.fields? ["target", "deviating"] = some [target, some (.list ms)])
      (hmem : m ∈ ms) (hm : Misdated .module m) : Misdated .row v
  | matrix {row : Value} {rows : List Value} (hmem : row ∈ rows) (hrow : Misdated .row row) :
      Misdated .matrix (.list rows)
  | supported {m : Value} (hm : Misdated .matrix m) :
      Misdated .supported (.record [("Restricted", m)])
  | config {v s : Value} (hv : v.fields? ["supported_deviations"] = some [some s])
      (hs : Misdated .supported s) : Misdated .config v

theorem Revision.decode?_eq_some {v : Value} {r : Revision} : decode? v = some r ↔ v = .text r.text := by
  constructor
  · intro h
    cases v with
    | text s =>
      have hs : (parse s).toOption = some r := h
      rw [parse_eq_ok_iff.1 (toOption_eq_some.1 hs)]
    | _ => cases h
  · rintro rfl
    exact decode?_encode r

theorem Misdated.refuses {f : Form} {v : Value} (h : Misdated f v) : f.Refuses v := by
  induction h with
  | @revision v _ hv =>
    refine Option.eq_none_iff_forall_ne_some.2 fun r hr => ?_
    exact hv r (Revision.decode?_eq_some.1 hr)
  | @module v r uri hv hr ih =>
    obtain ⟨hnull, -⟩ := hr
    have hrevision : r.optional? Revision.decode? = none := by
      have hr : Revision.decode? r = none := ih
      cases r <;> first | exact absurd rfl hnull | simp [Value.optional?, hr]
    show ModuleIdentity.decode? v = none
    cases uri <;> simp [ModuleIdentity.decode?, hv, hrevision]
  | @qname v owner name hv _ ih =>
    have howner : ModuleIdentity.decode? owner = none := ih
    show QName.decode? v = none
    cases name <;> simp [QName.decode?, hv, howner]
  | @path v step absolute steps hv hmem _ ih =>
    show SchemaPath.decode? v = none
    cases absolute <;> simp [SchemaPath.decode?, hv, Value.list?, mapM_eq_none hmem ih]
  | @target v target deviating hv _ ih =>
    have htarget : ModuleIdentity.decode? target = none := ih
    show DeviationMatrix.decodeRow? v = none
    cases deviating <;> simp [DeviationMatrix.decodeRow?, hv, htarget]
  | @deviating v m target ms hv hmem _ ih =>
    show DeviationMatrix.decodeRow? v = none
    cases target <;> simp [DeviationMatrix.decodeRow?, hv, Value.list?, mapM_eq_none hmem ih]
  | @matrix row rows hmem _ ih =>
    show DeviationMatrix.decode? (.list rows) = none
    simp [DeviationMatrix.decode?, Value.list?, mapM_eq_none hmem ih]
  | @supported m _ ih => exact congrArg (Option.map SupportedDeviations.restricted) ih
  | @config v s hv _ ih =>
    have hs : SupportedDeviations.decode? s = none := ih
    show BuildConfig.decode? v = none
    simp [BuildConfig.decode?, hv, hs]

/-! ## The theorem -/

section

open DeviationMatrix

/-- What is written is read again.  Rows are read whatever they list and in whatever order, to the matrix
that allows what they list; what this is written as is in canonical form, and the same for all rows that
list the same.  Nothing with a revision that is no date is read. -/
theorem serialForms_readBack :
    (∀ r : Revision, Revision.decode? r.encode = some r) ∧
    (∀ m : ModuleIdentity, ModuleIdentity.decode? m.encode = some m) ∧
    (∀ q : QName, QName.decode? q.encode = some q) ∧
    (∀ p : SchemaPath, SchemaPath.decode? p.encode = some p) ∧
    (∀ m : DeviationMatrix, ofPairs m.pairs = m ∧ DeviationMatrix.decode? m.encode = some m) ∧
    (∀ s : SupportedDeviations, SupportedDeviations.decode? s.encode = some s) ∧
    (∀ c : BuildConfig, BuildConfig.decode? c.encode = some c) ∧
    (∀ rows, ∃ m written, DeviationMatrix.decode? (.list (rows.map encodeRow)) = some m ∧
      (∀ t d, m.allows t d = true ↔ Listed rows t d) ∧
      m.encode = .list (written.map encodeRow) ∧ Canonical written ∧
      ∀ t d, Listed written t d ↔ Listed rows t d) ∧
    (∀ rows rows', (∀ t d, Listed rows t d ↔ Listed rows' t d) →
      DeviationMatrix.decode? (.list (rows.map encodeRow)) =
        DeviationMatrix.decode? (.list (rows'.map encodeRow))) ∧
    (∀ rows, Canonical rows → ∃ m, DeviationMatrix.decode? (.list (rows.map encodeRow)) = some m ∧
      m.encode = .list (rows.map encodeRow)) ∧
    ∀ f v, Misdated f v → f.Refuses v := by
  refine ⟨Revision.decode?_encode, ModuleIdentity.decode?_encode, QName.decode?_encode,
    SchemaPath.decode?_encode, fun m => ⟨ofPairs_pairs m, decode?_encode m⟩,
    SupportedDeviations.decode?_encode, BuildConfig.decode?_encode, fun rows => ?_,
    fun rows rows' hsame => ?_, fun rows hrows => ?_, fun _ _ => Misdated.refuses⟩
  · obtain ⟨m, hm, hallows⟩ := decode?_rows rows
    exact ⟨m, m.rows, hm, hallows, rfl, canonical_rows m, fun t d => listed_rows.trans (hallows t d)⟩
  · obtain ⟨m, hm, hallows⟩ := decode?_rows rows
    obtain ⟨m', hm', hallows'⟩ := decode?_rows rows'
    obtain rfl : m = m' := eq_of_allows fun t d => by
      rw [Bool.eq_iff_iff, hallows, hallows', hsame]
    rw [hm, hm']
  · obtain ⟨m, hm, hallows⟩ := decode?_rows rows
    have hwritten : m.rows = rows := (canonical_rows m).eq_of_listed hrows fun t d =>
      listed_rows.trans (hallows t d)
    exact ⟨m, hm, by rw [DeviationMatrix.encode, hwritten]⟩

/-- Two rows for one module, in no order, and one that lists nothing. -/
def looseRows : List (ModuleIdentity × List ModuleIdentity) :=
  [(⟨"urn:b", none⟩, [⟨"urn:d", none⟩, ⟨"urn:c", none⟩, ⟨"urn:d", none⟩]),
    (⟨"urn:a", none⟩, []), (⟨"urn:b", none⟩, [⟨"urn:c", none⟩])]

/-- The same in canonical form. -/
def tidyRows : List (ModuleIdentity × List ModuleIdentity) :=
  [(⟨"urn:b", none⟩, [⟨"urn:c", none⟩, ⟨"urn:d", none⟩])]

theorem serialForms_readBack_tidyRows :
    DeviationMatrix.decode? (.list (looseRows.map encodeRow)) =
      DeviationMatrix.decode? (.list (tidyRows.map encodeRow)) ∧
    (∃ m, DeviationMatrix.decode? (.list (tidyRows.map encodeRow)) = some m ∧
      m.encode = .list (tidyRows.map encodeRow)) ∧
    Form.module.Refuses (.record [("namespace", .text "urn:a"), ("revision", .text "2024-13-01")]) := by
  obtain ⟨-, -, -, -, -, -, -, -, hsame, hcanonical, hmisdated⟩ := serialForms_readBack
  have hcanonicalRows : Canonical tidyRows := by
    refine ⟨List.pairwise_singleton .., ?_, by decide⟩
    rw [tidyRows, List.forall_mem_singleton]
    exact List.pairwise_pair.2 (by decide +kernel)
  refine ⟨hsame _ _ fun t d => ?_, hcanonical _ hcanonicalRows, hmisdated _ _ ?_⟩
  · simp only [Listed, looseRows, tidyRows, List.mem_cons, List.not_mem_nil, exists_eq_or_imp,
      exists_eq_left, or_false]
    tauto
  · refine .module rfl (.revision (by rintro ⟨⟩) fun r hr => ?_)
    have hdate := r.isDate
    rw [← Value.text.inj hr] at hdate
    revert hdate
    decide

end

end YangSchema
