import YangSchema.Proofs.Declaration.Positions
import YangSchema.Proofs.Declaration.Targets
import YangSchema.Proofs.Faults

/-!
# What is read as a source

`Statement.WellFormed` says of a root, by the substatements that are there and by their arguments, that
it is the root of a source.  These roots are read and no others, and what is read is what the root says
(`Source.ReadFrom`): there is one lemma for each reader, which says exactly when it succeeds and with
what.  Where a substatement counts that stands several times, it is the first; of the revisions it is the
greatest, and imports and includes are listed as they stand.

A root that is not read is refused at a statement in it, which the trace of the fault shows.
-/

namespace YangSchema

/-- The keyword of a root that is of this kind. -/
def SourceKind.keyword : SourceKind → Keyword
  | module => .word .moduleWord
  | submodule => .word .submodule

theorem SourceKind.keyword_injective {kind kind' : SourceKind} (h : kind.keyword = kind'.keyword) :
    kind = kind' := by
  cases kind <;> cases kind' <;> first | rfl | cases h

/-! ## Substatements -/

namespace Statement

variable {s c t : Statement} {k : Keyword} {text : String}

/-- `c` is the first substatement with the keyword `k`. -/
def First (s : Statement) (k : Keyword) (c : Statement) : Prop :=
  ∃ before after, s.children = before ++ c :: after ∧ c.keyword = k ∧ ∀ b ∈ before, b.keyword ≠ k

/-- There is a substatement with the keyword `k`, and the first one has the argument `text`. -/
def Says (s : Statement) (k : Keyword) (text : String) : Prop :=
  ∃ c, s.First k c ∧ c.argument = some text

/-- `v` is the revision that the statement asks for: that of its first `revision-date`, if it has one. -/
def AsksFor (s : Statement) (v : Option Revision) : Prop :=
  (v = none ∧ ∀ c ∈ s.children, c.keyword ≠ .word .revisionDate) ∨
    ∃ r, v = some r ∧ s.Says (.word .revisionDate) r.text

theorem first?_eq_some : s.first? k = some c ↔ s.First k c := by
  rw [first?, List.find?_eq_some_iff_append]
  constructor
  · rintro ⟨hk, before, after, hchildren, hbefore⟩
    exact ⟨before, after, hchildren, beq_iff_eq.1 hk, by simpa using hbefore⟩
  · rintro ⟨before, after, hchildren, hk, hbefore⟩
    exact ⟨beq_iff_eq.2 hk, before, after, hchildren, by simpa using hbefore⟩

theorem first?_eq_none : s.first? k = none ↔ ∀ c ∈ s.children, c.keyword ≠ k := by
  simp [first?]

theorem argumentOf_eq_some : s.argumentOf k = some text ↔ s.Says k text := by
  simp only [argumentOf, Option.bind_eq_some_iff, first?_eq_some, Says]

theorem mem_all : c ∈ s.all k ↔ c ∈ s.children ∧ c.keyword = k := by
  simp [all]

theorem requireArgument_eq_ok : s.requireArgument = .ok text ↔ s.argument = some text := by
  unfold requireArgument
  cases s.argument <;> simp

/-- The tree below a statement is what stands at its positions. -/
theorem mem_preorder : t ∈ s.preorder ↔ ∃ p, s.at? p = some t := by
  constructor
  · intro ht
    induction hn : s.depth using Nat.strong_induction_on generalizing s with
    | _ n ih =>
      subst hn
      rw [preorder_eq] at ht
      rcases List.mem_cons.1 ht with rfl | ht
      · exact ⟨[], rfl⟩
      · obtain ⟨c, hc, ht⟩ := List.mem_flatMap.1 ht
        obtain ⟨i, hi⟩ := List.mem_iff_getElem?.1 hc
        obtain ⟨p, hp⟩ := ih _ (depth_lt_of_mem_children hc) ht rfl
        exact ⟨i :: p, by rw [at?_cons hi, hp]⟩
  · rintro ⟨p, hp⟩
    induction p generalizing s with
    | nil =>
      cases hp
      rw [preorder_eq]
      exact List.mem_cons_self
    | cons i p ih =>
      rw [at?] at hp
      obtain ⟨c, hc, hp⟩ := Option.bind_eq_some_iff.1 hp
      rw [preorder_eq]
      exact List.mem_cons_of_mem _ (List.mem_flatMap.2 ⟨c, List.mem_of_getElem? hc, ih hp⟩)

/-! ## What roots say -/

/-- What a root says for itself: a module its namespace and its prefix, a submodule the module that it
belongs to and the prefix that it uses for that. -/
inductive Allegiance (root : Statement) : SourceKind → Option String → Option Parent → String → Prop
  | module {uri binding : String} (keyword : root.keyword = .word .moduleWord)
    (namespaceUri : root.Says (.word .namespaceWord) uri)
    (ownPrefix : root.Says (.word .prefixWord) binding) :
    Allegiance root .module (some uri) none binding
  | submodule {c : Statement} {parent binding : String} (keyword : root.keyword = .word .submodule)
    (belongsTo : root.First (.word .belongsTo) c) (name : c.argument = some parent)
    (ownPrefix : c.Says (.word .prefixWord) binding) :
    Allegiance root .submodule none (some ⟨parent, binding⟩) binding

/-- The revision that a statement stands for. -/
def Dates (s : Statement) (r : Revision) : Prop := s.argument = some r.text

/-- The import that a statement stands for. -/
structure Imports (s : Statement) (i : Import) : Prop where
  name : s.argument = some i.name
  binding : s.Says (.word .prefixWord) i.binding
  revision : s.AsksFor i.revision
  location : i.location = s.location

/-- The include that a statement stands for. -/
structure Includes (s : Statement) (i : Include) : Prop where
  name : s.argument = some i.name
  revision : s.AsksFor i.revision
  location : i.location = s.location

/-- If the statement asks for a revision, the first `revision-date` is a date. -/
def AsksWell (s : Statement) : Prop :=
  (∃ c ∈ s.children, c.keyword = .word .revisionDate) →
    ∃ r : Revision, s.Says (.word .revisionDate) r.text

/-- Every statement in the tree has a keyword of the language or of an extension. -/
def Known (root : Statement) : Prop := ∀ p s, root.at? p = some s → ∀ text, s.keyword ≠ .other text

/-- The root is that of a source. -/
structure WellFormed (root : Statement) : Prop where
  argument : ∃ name, root.argument = some name
  known : root.Known
  allegiance : ∃ kind uri parent binding, root.Allegiance kind uri parent binding
  revisions : ∀ s ∈ root.children, s.keyword = .word .revision →
    ∃ r, s.Dates r
  imports : ∀ s ∈ root.children, s.keyword = .word .importWord →
    (∃ name, s.argument = some name) ∧ (∃ binding, s.Says (.word .prefixWord) binding) ∧ s.AsksWell
  includes : ∀ s ∈ root.children, s.keyword = .word .includeWord →
    (∃ name, s.argument = some name) ∧ s.AsksWell

theorem Allegiance.keyword_eq {kind : SourceKind} {uri : Option String} {parent : Option Parent}
    {binding : String} (h : s.Allegiance kind uri parent binding) : s.keyword = kind.keyword := by
  cases h with
  | module hkeyword => exact hkeyword
  | submodule hkeyword => exact hkeyword

theorem exists_asksFor : (∃ v, s.AsksFor v) ↔ s.AsksWell := by
  constructor
  · rintro ⟨v, ⟨-, hnone⟩ | ⟨r, -, hr⟩⟩ ⟨c, hc, hk⟩
    · exact absurd hk (hnone c hc)
    · exact ⟨r, hr⟩
  · intro h
    by_cases hsome : ∃ c ∈ s.children, c.keyword = .word .revisionDate
    · obtain ⟨r, hr⟩ := h hsome
      exact ⟨some r, .inr ⟨r, rfl, hr⟩⟩
    · exact ⟨none, .inl ⟨rfl, by simpa using hsome⟩⟩

theorem exists_imports : (∃ i, s.Imports i) ↔
    (∃ name, s.argument = some name) ∧ (∃ binding, s.Says (.word .prefixWord) binding) ∧ s.AsksWell := by
  rw [← exists_asksFor]
  constructor
  · rintro ⟨i, h⟩
    exact ⟨⟨_, h.name⟩, ⟨_, h.binding⟩, ⟨_, h.revision⟩⟩
  · rintro ⟨⟨name, hname⟩, ⟨binding, hbinding⟩, ⟨v, hv⟩⟩
    exact ⟨⟨name, binding, v, s.location⟩, hname, hbinding, hv, rfl⟩

theorem exists_includes : (∃ i, s.Includes i) ↔ (∃ name, s.argument = some name) ∧ s.AsksWell := by
  rw [← exists_asksFor]
  constructor
  · rintro ⟨i, h⟩
    exact ⟨⟨_, h.name⟩, ⟨_, h.revision⟩⟩
  · rintro ⟨⟨name, hname⟩, ⟨v, hv⟩⟩
    exact ⟨⟨name, v, s.location⟩, hname, hv, rfl⟩

end Statement

/-! ## The latest revision -/

namespace Revision

/-- `v` is the greatest of the revisions, or none if there are none. -/
def Latest (rs : List Revision) (v : Option Revision) : Prop :=
  (v = none ∧ rs = []) ∨
    ∃ r ∈ rs, v = some r ∧ ∀ r' ∈ rs, r' ≠ r → Before (some r') (some r)

/-- The greatest is the same in whatever order the revisions are listed. -/
theorem Latest.eq_of_perm {rs rs' : List Revision} {v v' : Option Revision} (h : Latest rs v)
    (h' : Latest rs' v') (hperm : rs'.Perm rs) : v' = v := by
  rcases h with ⟨rfl, rfl⟩ | ⟨r, hr, rfl, hbelow⟩
  · rcases h' with ⟨rfl, -⟩ | ⟨r', hr', -⟩
    · rfl
    · exact absurd (hperm.mem_iff.1 hr') List.not_mem_nil
  · rcases h' with ⟨-, rfl⟩ | ⟨r', hr', rfl, hbelow'⟩
    · exact absurd (hperm.mem_iff.2 hr) List.not_mem_nil
    · by_contra hne
      have hne : r' ≠ r := fun heq => hne (congrArg some heq)
      have hlt := compare_eq_lt.2 (hbelow r' (hperm.mem_iff.1 hr') hne)
      have hgt := compare_eq_lt.2 (hbelow' r (hperm.mem_iff.2 hr) hne.symm)
      rw [Std.OrientedCmp.gt_of_lt hlt] at hgt
      cases hgt

end Revision

namespace Source

open Statement

variable {label : String} {root s : Statement} {src : Source} {f : Fault} {k : Keyword}

theorem latest_foldl_later (rs : List Revision) : Revision.Latest rs (rs.foldl later none) := by
  induction rs using List.reverseRecOn with
  | nil => exact .inl ⟨rfl, rfl⟩
  | append_singleton rs r ih =>
    rw [List.foldl_append, List.foldl_cons, List.foldl_nil]
    rcases ih with ⟨hnone, rfl⟩ | ⟨m, hm, hlatest, hbelow⟩
    · rw [hnone]
      exact .inr ⟨r, by simp, rfl, by simp⟩
    · rw [hlatest, later]
      by_cases hlt : compare (some m) (some r) = .lt
      · -- the new one is later than the latest, and so than all that this is later than
        refine .inr ⟨r, by simp, by simp [hlt], fun r' hr' hne => ?_⟩
        rcases List.mem_append.1 hr' with hr' | hr'
        · rw [← Revision.compare_eq_lt]
          by_cases hrm : r' = m
          · rw [hrm, hlt]
          · exact Std.TransCmp.lt_trans (Revision.compare_eq_lt.2 (hbelow r' hr' hrm)) hlt
        · exact absurd (List.mem_singleton.1 hr') hne
      · refine .inr ⟨m, by simp [hm], by simp [hlt], fun r' hr' hne => ?_⟩
        rcases List.mem_append.1 hr' with hr' | hr'
        · exact hbelow r' hr' hne
        · obtain rfl := List.mem_singleton.1 hr'
          rw [← Revision.compare_eq_lt]
          cases hc : compare (some m) (some r') with
          | lt => exact absurd hc hlt
          | eq => exact absurd (Option.some.inj (Std.LawfulEqOrd.eq_of_compare hc)).symm hne
          | gt => exact Std.OrientedCmp.lt_of_gt hc

/-! ## When the readers succeed -/

theorem requireChild_eq_ok {kind : SourceKind} {name text : String} {c : Statement} :
    requireChild label root kind name k = .ok (c, text) ↔
      root.First k c ∧ c.argument = some text := by
  unfold requireChild
  rw [← first?_eq_some]
  cases root.first? k with
  | none => exact iff_of_false (by rintro ⟨⟩) (by rintro ⟨⟨⟩, -⟩)
  | some c' =>
    simp only [bind_eq_ok, located_eq_ok, requireArgument_eq_ok, pure, Except.pure, Except.ok.injEq,
      Prod.mk.injEq, Option.some.injEq]
    constructor
    · rintro ⟨_, htext, rfl, rfl⟩
      exact ⟨rfl, htext⟩
    · rintro ⟨rfl, htext⟩
      exact ⟨text, htext, rfl, rfl⟩

theorem readRevision_eq_ok {r : Revision} : readRevision s = .ok r ↔ s.Dates r := by
  unfold readRevision Dates
  rw [bind_eq_ok]
  simp only [requireArgument_eq_ok, Revision.parse_eq_ok_iff]
  exact ⟨fun ⟨_, htext, hr⟩ => hr ▸ htext, fun htext => ⟨_, htext, rfl⟩⟩

theorem readRevisionDate_eq_ok {v : Option Revision} : readRevisionDate s = .ok v ↔ s.AsksFor v := by
  have hsays : ∀ r : Revision, s.Says (.word .revisionDate) r.text ↔
      ∃ c, s.first? (.word .revisionDate) = some c ∧ readRevision c = .ok r := by
    simp only [Says, first?_eq_some, readRevision_eq_ok, Dates, implies_true]
  unfold readRevisionDate AsksFor
  simp only [← first?_eq_none, hsays]
  cases s.first? (.word .revisionDate) with
  | none =>
    constructor
    · rintro ⟨⟩
      exact .inl ⟨rfl, rfl⟩
    · rintro (⟨rfl, -⟩ | ⟨_, -, _, ⟨⟩, -⟩)
      rfl
  | some c =>
    show (readRevision c >>= fun r => pure (some r)) = _ ↔ _
    rw [bind_eq_ok]
    constructor
    · rintro ⟨r, hr, ⟨⟩⟩
      exact .inr ⟨r, rfl, c, rfl, hr⟩
    · rintro (⟨-, ⟨⟩⟩ | ⟨r, rfl, _, ⟨⟩, hr⟩)
      exact ⟨r, hr, rfl⟩

theorem readImport_eq_ok {i : Import} : readImport s = .ok i ↔ s.Imports i := by
  unfold readImport
  simp only [bind_eq_ok, requireArgument_eq_ok]
  constructor
  · rintro ⟨name, hname, h⟩
    split at h
    · next binding hbinding =>
      obtain ⟨v, hv, h⟩ := bind_eq_ok.1 h
      cases h
      exact ⟨hname, argumentOf_eq_some.1 hbinding, readRevisionDate_eq_ok.1 hv, rfl⟩
    · cases h
  · rintro ⟨hname, hbinding, hrevision, hlocation⟩
    refine ⟨i.name, hname, ?_⟩
    rw [argumentOf_eq_some.2 hbinding]
    exact bind_eq_ok.2 ⟨i.revision, readRevisionDate_eq_ok.2 hrevision, by rw [← hlocation]; rfl⟩

theorem readInclude_eq_ok {i : Include} : readInclude s = .ok i ↔ s.Includes i := by
  unfold readInclude
  simp only [bind_eq_ok, requireArgument_eq_ok, readRevisionDate_eq_ok]
  constructor
  · rintro ⟨name, hname, v, hv, ⟨⟩⟩
    exact ⟨hname, hv, rfl⟩
  · rintro ⟨hname, hrevision, hlocation⟩
    exact ⟨i.name, hname, i.revision, hrevision, by rw [← hlocation]; rfl⟩

theorem readAllegiance_eq_ok {kind : SourceKind} {name binding : String} {uri : Option String}
    {parent : Option Parent} (hkind : root.keyword = kind.keyword) :
    readAllegiance label root kind name = .ok (uri, parent, binding) ↔
      root.Allegiance kind uri parent binding := by
  unfold readAllegiance
  cases kind with
  | module =>
    simp only [bind_eq_ok, Prod.exists, requireChild_eq_ok]
    constructor
    · rintro ⟨c, uri, ⟨hc, huri⟩, c', binding, ⟨hc', hbinding⟩, ⟨⟩⟩
      exact .module hkind ⟨c, hc, huri⟩ ⟨c', hc', hbinding⟩
    · rintro (⟨-, ⟨c, hc, huri⟩, ⟨c', hc', hbinding⟩⟩ | _)
      exact ⟨c, _, ⟨hc, huri⟩, c', _, ⟨hc', hbinding⟩, rfl⟩
  | submodule =>
    simp only [bind_eq_ok, Prod.exists, requireChild_eq_ok]
    constructor
    · rintro ⟨c, parent, ⟨hc, hparent⟩, h⟩
      split at h
      · next binding hbinding =>
        cases h
        exact .submodule hkind hc hparent (argumentOf_eq_some.1 hbinding)
      · cases h
    · rintro (_ | ⟨-, hc, hparent, hbinding⟩)
      refine ⟨_, _, ⟨hc, hparent⟩, ?_⟩
      rw [argumentOf_eq_some.2 hbinding]
      rfl

theorem walk_checkKnown_eq_ok {u : Unit} : root.walk (checkKnown label) = .ok u ↔ root.Known := by
  unfold walk
  rw [forM_eq_ok]
  have hcheck : ∀ s, checkKnown label s = .ok () ↔ ∀ text, s.keyword ≠ .other text := by
    intro s
    unfold checkKnown
    cases s.keyword <;> simp
  simp only [hcheck, mem_preorder]
  exact ⟨fun h p s hs => h s ⟨p, hs⟩, fun h s ⟨p, hs⟩ => h p s hs⟩

/-- A list is read as a whole if each of its elements can be read. -/
theorem exists_forall₂_iff {α β : Type} {R : α → β → Prop} {l : List α} :
    (∃ bs, List.Forall₂ R l bs) ↔ ∀ a ∈ l, ∃ b, R a b := by
  induction l with
  | nil => exact iff_of_true ⟨[], .nil⟩ (by simp)
  | cons a l ih =>
    rw [List.forall_mem_cons, ← ih]
    constructor
    · rintro ⟨_, hab | ⟨hab, hl⟩⟩
      exact ⟨⟨_, hab⟩, ⟨_, hl⟩⟩
    · rintro ⟨⟨b, hab⟩, ⟨bs, hl⟩⟩
      exact ⟨b :: bs, .cons hab hl⟩

theorem mapM_eq_ok {α β : Type} {g : α → Except Fault β} {t : α → Trace} {R : α → β → Prop}
    (h : ∀ a b, g a = .ok b ↔ R a b) {l : List α} {bs : List β} :
    l.mapM (fun a => located (t a) (g a)) = .ok bs ↔ List.Forall₂ R l bs := by
  have hR : (fun a b => located (t a) (g a) = .ok b) = R := by
    funext a b
    rw [located_eq_ok, h]
  rw [← hR]
  exact ⟨forall₂_of_mapM_ok, mapM_ok_of_forall₂⟩

/-- The source is what the root says. -/
structure ReadFrom (label : String) (root : Statement) (src : Source) : Prop where
  label_eq : src.label = label
  root_eq : src.root = root
  name : root.argument = some src.name
  known : root.Known
  allegiance : root.Allegiance src.kind src.namespaceUri src.parent src.ownPrefix
  revision : ∃ rs, List.Forall₂ Dates (root.all (.word .revision)) rs ∧ Revision.Latest rs src.revision
  imports : List.Forall₂ Imports (root.all (.word .importWord)) src.imports
  includes : List.Forall₂ Includes (root.all (.word .includeWord)) src.includes
  header : src.header = readHeader root

theorem analyze_eq_ok : analyze label root = .ok src ↔ src.ReadFrom label root := by
  unfold analyze
  extract_lets rest
  have hrest : ∀ kind, root.keyword = kind.keyword →
      (rest kind = .ok src ↔ src.ReadFrom label root) := by
    intro kind hkind
    simp only [rest, bind_eq_ok, located_eq_ok, requireArgument_eq_ok, walk_checkKnown_eq_ok,
      Prod.exists, readAllegiance_eq_ok hkind, mapM_eq_ok fun _ _ => readRevision_eq_ok,
      mapM_eq_ok fun _ _ => readImport_eq_ok, mapM_eq_ok fun _ _ => readInclude_eq_ok]
    constructor
    · rintro ⟨name, hname, -, hknown, uri, parent, binding, hallegiance, rs, hrs, imports, himports,
        includes, hincludes, ⟨⟩⟩
      exact ⟨rfl, rfl, hname, hknown, hallegiance, ⟨rs, hrs, latest_foldl_later rs⟩, himports,
        hincludes, rfl⟩
    · rintro ⟨hlabel, hroot, hname, hknown, hallegiance, ⟨rs, hrs, hlatest⟩, himports, hincludes,
        hheader⟩
      have hkind : kind = src.kind :=
        SourceKind.keyword_injective (hkind.symm.trans hallegiance.keyword_eq)
      have hrevision : rs.foldl later none = src.revision :=
        hlatest.eq_of_perm (latest_foldl_later rs) (.refl rs)
      refine ⟨_, hname, ⟨⟩, hknown, _, _, _, hkind ▸ hallegiance, _, hrs, _, himports, _, hincludes, ?_⟩
      rw [hkind, hrevision, ← hheader, ← hlabel, ← hroot]
      rfl
  split
  · next hk => exact hrest .module hk
  · next hk => exact hrest .submodule hk
  · next hmodule hsubmodule =>
    refine iff_of_false (by rintro ⟨⟩) fun h => ?_
    have hkeyword := h.allegiance.keyword_eq
    cases hkind : src.kind with
    | module => exact hmodule (by rw [hkeyword, hkind]; rfl)
    | submodule => exact hsubmodule (by rw [hkeyword, hkind]; rfl)

theorem exists_readFrom : (∃ src : Source, src.ReadFrom label root) ↔ root.WellFormed := by
  have hall : ∀ {β : Type} {R : Statement → β → Prop} {k : Keyword},
      (∃ bs, List.Forall₂ R (root.all k) bs) ↔ ∀ s ∈ root.children, s.keyword = k → ∃ b, R s b := by
    intro β R k
    simp only [exists_forall₂_iff, mem_all, and_imp]
  constructor
  · rintro ⟨src, h⟩
    obtain ⟨rs, hrs, -⟩ := h.revision
    have himports := hall.1 ⟨_, h.imports⟩
    have hincludes := hall.1 ⟨_, h.includes⟩
    simp only [exists_imports, exists_includes] at himports hincludes
    exact ⟨⟨_, h.name⟩, h.known, ⟨_, _, _, _, h.allegiance⟩, hall.1 ⟨rs, hrs⟩, himports, hincludes⟩
  · rintro ⟨⟨name, hname⟩, hknown, ⟨kind, uri, parent, binding, hallegiance⟩, hrevisions, himports,
      hincludes⟩
    simp only [← exists_imports] at himports
    simp only [← exists_includes] at hincludes
    obtain ⟨rs, hrs⟩ := hall.2 hrevisions
    obtain ⟨imports, himports⟩ := hall.2 himports
    obtain ⟨includes, hincludes⟩ := hall.2 hincludes
    exact ⟨⟨label, kind, name, uri, parent, binding, rs.foldl later none, readHeader root, imports,
      includes, root⟩, rfl, rfl, hname, hknown, hallegiance, ⟨rs, hrs, latest_foldl_later rs⟩, himports,
      hincludes, rfl⟩

/-! ## Where a root is refused -/

/-- If the computation fails, nobody has said where. -/
def Untraced {α : Type} (x : Except Fault α) : Prop := ∀ f, x = .error f → f.trace = none

theorem Untraced.bind {α β : Type} {x : Except Fault α} {g : α → Except Fault β} (hx : Untraced x)
    (hg : ∀ a, Untraced (g a)) : Untraced (x >>= g) := by
  intro f hf
  rcases bind_eq_error.1 hf with hf | ⟨a, -, hf⟩
  · exact hx f hf
  · exact hg a f hf

theorem untraced_ok {α : Type} (a : α) : Untraced (.ok a) := by
  rintro f ⟨⟩

theorem untraced_malformed {α : Type} (problem : SyntaxProblem) :
    Untraced (.error (.malformed problem) : Except Fault α) := by
  rintro f ⟨⟩
  rfl

theorem untraced_requireArgument (s : Statement) : Untraced s.requireArgument := by
  unfold requireArgument
  cases s.argument with
  | none => exact untraced_malformed _
  | some a => exact untraced_ok a

theorem untraced_readRevision (s : Statement) : Untraced (readRevision s) := by
  refine (untraced_requireArgument s).bind fun text => ?_
  unfold Revision.parse
  split
  · exact untraced_ok _
  · exact untraced_malformed _

theorem untraced_readRevisionDate (s : Statement) : Untraced (readRevisionDate s) := by
  unfold readRevisionDate
  cases s.first? (.word .revisionDate) with
  | none => exact untraced_ok _
  | some c => exact (untraced_readRevision c).bind fun r => untraced_ok (some r)

theorem untraced_readImport (s : Statement) : Untraced (readImport s) := by
  refine (untraced_requireArgument s).bind fun name => ?_
  split
  · exact (untraced_readRevisionDate s).bind fun v => untraced_ok _
  · exact untraced_malformed _

theorem untraced_readInclude (s : Statement) : Untraced (readInclude s) :=
  (untraced_requireArgument s).bind fun _ => (untraced_readRevisionDate s).bind fun _ => untraced_ok _

/-- The trace is that of a statement in the tree of the root. -/
def TracedIn (label : String) (root : Statement) (f : Fault) : Prop :=
  ∃ p s, root.at? p = some s ∧ f.trace = some (s.trace label)

theorem Untraced.tracedIn {α : Type} {x : Except Fault α} {p : Position} (hx : Untraced x)
    (hs : root.at? p = some s) (hf : located (s.trace label) x = .error f) : TracedIn label root f := by
  obtain ⟨g, hg, rfl⟩ := located_eq_error.1 hf
  exact ⟨p, s, hs, by rw [Fault.locate, hx g hg]; rfl⟩

/-- The substatements stand in the tree. -/
theorem exists_at?_of_mem_children (hs : s ∈ root.children) : ∃ p, root.at? p = some s := by
  obtain ⟨i, hi⟩ := List.mem_iff_getElem?.1 hs
  exact ⟨[i], at?_cons hi []⟩

theorem tracedIn_of_mapM {β : Type} {g : Statement → Except Fault β} (hg : ∀ s, Untraced (g s))
    (hf : (root.all k).mapM (fun s => located (s.trace label) (g s)) = .error f) :
    TracedIn label root f := by
  obtain ⟨s, hs, hf⟩ := exists_of_mapM_eq_error hf
  obtain ⟨p, hp⟩ := exists_at?_of_mem_children (mem_all.1 hs).1
  exact (hg s).tracedIn hp hf

theorem tracedIn_of_walk (hf : root.walk (checkKnown label) = .error f) : TracedIn label root f := by
  obtain ⟨s, hs, hf⟩ := exists_of_forM_eq_error hf
  obtain ⟨p, hp⟩ := mem_preorder.1 hs
  unfold checkKnown at hf
  split at hf
  · cases hf
    exact ⟨p, s, hp, rfl⟩
  · cases hf

theorem tracedIn_of_requireChild {kind : SourceKind} {name : String}
    (hf : requireChild label root kind name k = .error f) : TracedIn label root f := by
  unfold requireChild at hf
  split at hf
  · cases hf
    exact ⟨[], root, rfl, rfl⟩
  · next c hc =>
    obtain ⟨p, hp⟩ := exists_at?_of_mem_children (List.mem_of_find?_eq_some hc)
    rcases bind_eq_error.1 hf with hf | ⟨_, -, ⟨⟩⟩
    exact (untraced_requireArgument c).tracedIn hp hf

theorem tracedIn_of_readAllegiance {kind : SourceKind} {name : String}
    (hf : readAllegiance label root kind name = .error f) : TracedIn label root f := by
  unfold readAllegiance at hf
  cases kind with
  | module =>
    rcases bind_eq_error.1 hf with hf | ⟨_, -, hf⟩
    · exact tracedIn_of_requireChild hf
    · rcases bind_eq_error.1 hf with hf | ⟨_, -, ⟨⟩⟩
      exact tracedIn_of_requireChild hf
  | submodule =>
    rcases bind_eq_error.1 hf with hf | ⟨⟨c, parent⟩, hc, hf⟩
    · exact tracedIn_of_requireChild hf
    · obtain ⟨⟨before, after, hchildren, -⟩, -⟩ := requireChild_eq_ok.1 hc
      obtain ⟨p, hp⟩ := exists_at?_of_mem_children (show c ∈ root.children by simp [hchildren])
      dsimp only at hf
      split at hf
      · cases hf
      · cases hf
        exact ⟨p, c, hp, rfl⟩

theorem tracedIn_of_analyze (hf : analyze label root = .error f) : TracedIn label root f := by
  unfold analyze at hf
  extract_lets rest at hf
  have hrest : ∀ kind, rest kind = .error f → TracedIn label root f := by
    intro kind hf
    rcases bind_eq_error.1 hf with hf | ⟨name, -, hf⟩
    · exact (untraced_requireArgument root).tracedIn (p := []) rfl hf
    rcases bind_eq_error.1 hf with hf | ⟨-, -, hf⟩
    · exact tracedIn_of_walk hf
    rcases bind_eq_error.1 hf with hf | ⟨⟨uri, parent, binding⟩, -, hf⟩
    · exact tracedIn_of_readAllegiance hf
    rcases bind_eq_error.1 hf with hf | ⟨_, -, hf⟩
    · exact tracedIn_of_mapM untraced_readRevision hf
    rcases bind_eq_error.1 hf with hf | ⟨_, -, hf⟩
    · exact tracedIn_of_mapM untraced_readImport hf
    rcases bind_eq_error.1 hf with hf | ⟨_, -, ⟨⟩⟩
    exact tracedIn_of_mapM untraced_readInclude hf
  split at hf
  · exact hrest .module hf
  · exact hrest .submodule hf
  · cases hf
    exact ⟨[], root, rfl, rfl⟩

theorem forall₂_dates_unique {l : List Statement} {rs rs' : List Revision} (h : List.Forall₂ Dates l rs)
    (h' : List.Forall₂ Dates l rs') : rs = rs' :=
  List.right_unique_forall₂' (fun _ _ _ hr hr' =>
    Revision.ext (Option.some.inj (hr.symm.trans hr'))) h h'

/-- The roots that are read are the well-formed ones, and what is read is what the root says: of several
revisions the greatest, whatever their order, and imports and includes in the order in which they stand.
A fault tells the source and shows a statement of the tree. -/
theorem analyze_exact (label : String) (root : Statement) :
    ((∃ src, analyze label root = .ok src) ↔ root.WellFormed) ∧
    (∀ src, analyze label root = .ok src ↔ src.ReadFrom label root) ∧
    (∀ label' root' src src', analyze label root = .ok src → analyze label' root' = .ok src' →
      (root'.all (.word .revision)).Perm (root.all (.word .revision)) → src'.revision = src.revision) ∧
    ∀ f, analyze label root = .error f → ∃ p s, root.at? p = some s ∧ f.trace =
      some { source := some label, location := some s.location, frames := [s.render] } := by
  refine ⟨?_, fun src => analyze_eq_ok, fun label' root' src src' h h' hperm => ?_, fun f hf =>
    tracedIn_of_analyze hf⟩
  · simp only [analyze_eq_ok, exists_readFrom]
  · obtain ⟨rs, hrs, hlatest⟩ := (analyze_eq_ok.1 h).revision
    obtain ⟨rs', hrs', hlatest'⟩ := (analyze_eq_ok.1 h').revision
    -- both read the same dates, in another order
    obtain ⟨rs₁, hrs₁, hperm₁⟩ := List.perm_comp_forall₂ hperm hrs
    obtain rfl : rs₁ = rs' := forall₂_dates_unique hrs₁ hrs'
    exact hlatest.eq_of_perm hlatest' hperm₁

/-- A module with these revisions, and with a misspelt statement in a container if there is a text of
one. -/
def datedRoot (dates : List String) (misspelt : Option String) : Statement where
  keyword := .word .moduleWord
  argument := some "m"
  location := ⟨1, 1⟩
  children := [{ keyword := .word .namespaceWord, argument := some "urn:m" },
    { keyword := .word .prefixWord, argument := some "m" },
    { keyword := .word .container, argument := some "top",
      children := (misspelt.map fun text =>
        { keyword := .other text, argument := some "x", location := ⟨7, 5⟩ }).toList }] ++
    dates.map fun date => { keyword := .word .revision, argument := some date }

/-- The latest of two revisions is read in either order, and the misspelt statement is shown. -/
theorem analyze_exact_datedRoot : ∃ src src' f,
    analyze "m.yang" (datedRoot ["2016-01-01", "2017-05-05"] none) = .ok src ∧
    analyze "m.yang" (datedRoot ["2017-05-05", "2016-01-01"] none) = .ok src' ∧
    src.revision.map Revision.text = some "2017-05-05" ∧ src'.revision = src.revision ∧
    analyze "m.yang" (datedRoot [] (some "leef")) = .error f ∧
    f.cause = .malformed (.unknownStatement "leef") ∧ TracedIn "m.yang" (datedRoot [] (some "leef")) f := by
  have hsrc : (analyze "m.yang" (datedRoot ["2016-01-01", "2017-05-05"] none)).toOption.any fun src =>
      decide (src.revision.map Revision.text = some "2017-05-05") := by decide +kernel
  have hsrc' : (analyze "m.yang" (datedRoot ["2017-05-05", "2016-01-01"] none)).toOption.isSome := by
    decide +kernel
  have hf : (fault? (analyze "m.yang" (datedRoot [] (some "leef")))).any fun f =>
      decide (f.cause = .malformed (.unknownStatement "leef")) := by decide +kernel
  have hperm : ((datedRoot ["2017-05-05", "2016-01-01"] none).all (.word .revision)).Perm
      ((datedRoot ["2016-01-01", "2017-05-05"] none).all (.word .revision)) := List.Perm.swap ..
  simp only [Option.any_eq_true, Option.isSome_iff_exists, toOption_eq_some, fault?_eq_some,
    decide_eq_true_eq] at hsrc hsrc' hf
  obtain ⟨src, hsrc, hrevision⟩ := hsrc
  obtain ⟨src', hsrc'⟩ := hsrc'
  obtain ⟨f, hf, hcause⟩ := hf
  have hsame := (analyze_exact "m.yang" _).2.2.1 _ _ _ _ hsrc hsrc' hperm
  exact ⟨src, src', f, hsrc, hsrc', hrevision, hsame, hf, hcause, (analyze_exact "m.yang" _).2.2.2 f hf⟩

end Source

end YangSchema
