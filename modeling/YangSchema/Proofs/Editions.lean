import YangSchema.Proofs.NodePaths
import YangSchema.Proofs.Resolution

/-!
# Revisions of modules

The modules of a schema come of sources with different names or revisions, and were declared under
different identities (`Builds.nodup_keys`, `Builds.Course.module_unique`).  So the revisions of the
modules of a name are different, and those of the modules of a namespace too: an index by revision holds
all of these modules, oldest first, and none of them hides another (`Schema.perm_editions`).
-/

namespace YangSchema

/-! ## Names and revisions -/

/-- Name and revision of a module. -/
def Module.key (m : Module) : SourceKey := ⟨m.name, m.revision⟩

theorem Source.parent_eq_none_of_analyze {label : String} {root : Statement} {s : Source}
    (h : analyze label root = .ok s) (hsub : s.isSubmodule = false) : s.parent = none := by
  obtain ⟨-, hkind, name, hread⟩ := exists_of_analyze h
  rcases hkind with ⟨-, hkind⟩ | ⟨-, hkind⟩
  · rw [hkind] at hread
    obtain ⟨_, -, hread⟩ := exists_of_bind_eq_ok hread
    obtain ⟨_, -, hread⟩ := exists_of_bind_eq_ok hread
    exact (Prod.mk.inj (Prod.mk.inj (Except.ok.inj hread)).2).1.symm
  · rw [isSubmodule, hkind] at hsub
    cases hsub

namespace Registry

variable {sources : List ParsedSource} {r : Registry} {s : Source} {facts : ModuleFacts}

theorem parent_eq_none (hr : collectSources sources = .ok r) (hs : s ∈ r.sources)
    (hsub : s.isSubmodule = false) : s.parent = none := by
  obtain ⟨p, -, root, -, hread⟩ := exists_of_collectSources hr hs
  exact Source.parent_eq_none_of_analyze hread hsub

/-- A source that belongs to no other contributes to itself, under its own revision. -/
theorem Heads.key (h : r.Heads s facts) (hparent : s.parent = none) :
    s.key = ⟨facts.name, facts.identity.revision⟩ := by
  obtain ⟨submodules, own, -, -, hfacts⟩ := id h
  have hname : facts.name = s.name := congrArg ModuleFacts.name hfacts
  have hidentity := h.identity
  have howner : r.owningModule s = .ok s := by rw [owningModule, hparent]
  unfold effectiveIdentity at hidentity
  rw [howner] at hidentity
  have hrevision : facts.identity.revision = s.revision := by
    simp only [bind, Except.bind] at hidentity
    split at hidentity
    · rw [← Except.ok.inj hidentity]
    · cases hidentity
  rw [hname, hrevision]
  rfl

end Registry

/-- No two modules of a schema have the same name and revision. -/
theorem Builds.nodup_keys {sources : List ParsedSource} {config : BuildConfig} {modules : List ModuleId}
    {w : Workspace} {schema : Schema} (h : Builds sources config modules w schema) :
    (schema.modules.map Module.key).Nodup := by
  obtain ⟨r, order, hr, hlink, hdeclared⟩ := h.declared
  obtain ⟨hsorted, hperm⟩ := Registry.sorted_of_link hlink
  have hheads := (gives_declareModules_headed r config order modules w hdeclared).2.2
  have hkeys : List.Forall₂ (fun s m => Source.key s = Module.key m) (order.filter (!·.isSubmodule))
      schema.modules := by
    have hmodule : ∀ s ∈ order.filter (!·.isSubmodule), s.parent = none := by
      intro s hs
      obtain ⟨hs, hsub⟩ := List.mem_filter.1 hs
      exact Registry.parent_eq_none hr (hperm.mem_iff.1 hs) (by simpa using hsub)
    refine forall₂_join ((List.forall₂_and_left _ _).2 ⟨hmodule, hheads⟩).flip h.headings ?_
    rintro i - s m ⟨hparent, hhead⟩ hheading
    exact (hhead.congr hheading).key hparent
  have hmaps : (order.filter (!·.isSubmodule)).map Source.key = schema.modules.map Module.key :=
    List.forall₂_eq_eq_eq ▸ List.forall₂_map_left_iff.2 (List.forall₂_map_right_iff.2 hkeys)
  rw [← hmaps]
  exact (Registry.ModuleOrder.of_sorted hsorted hperm).nodup

/-! ## Indexes -/

namespace Schema

variable {s : Schema} {p : Module → Bool} {m : Module}

/-- Modules of one name have different revisions if no two modules have both in common. -/
theorem distinguishes_name (h : (s.modules.map Module.key).Nodup) (name : String) :
    s.Distinguishes (·.name == name) := by
  intro m hm hname m' hm' hname' hrevision
  refine List.inj_on_of_nodup_map h hm hm' (congrArg₂ SourceKey.mk ?_ hrevision)
  exact (eq_of_beq hname).trans (eq_of_beq hname').symm

theorem ordered_editions (s : Schema) (p : Module → Bool) : Ordered Module.revision (s.editions p) :=
  ordered_orderedBy _ _

/-- The revisions are those of the selected modules, each once. -/
theorem perm_editions (h : s.Distinguishes p) (hs : s.modules.Nodup) :
    (s.editions p).Perm (s.modules.filter p) := by
  have hnodup : (s.editions p).Nodup := (s.ordered_editions p).nodup
  refine (List.perm_ext_iff_of_nodup hnodup (hs.filter p)).2 fun m => ?_
  rw [mem_editions h, List.mem_filter]

theorem getLast?_editions (h : s.Distinguishes p) : (s.editions p).getLast? = some m ↔
    m ∈ s.modules ∧ p m ∧ ∀ m' ∈ s.modules, p m' → m' ≠ m → Revision.Before m'.revision m.revision := by
  rw [(s.ordered_editions p).getLast?_eq_some, mem_editions h, and_assoc]
  refine and_congr_right fun _ => and_congr_right fun _ => ?_
  simp only [mem_editions h, and_imp, Revision.compare_eq_lt]

theorem getLast?_editions_eq_none (h : s.Distinguishes p) :
    (s.editions p).getLast? = none ↔ ∀ m ∈ s.modules, ¬ p m := by
  rw [List.getLast?_eq_none_iff, List.eq_nil_iff_forall_not_mem]
  simp only [mem_editions h, not_and]

end Schema

/-! ## The modules of a build -/

section

variable {sources : List ParsedSource} {config : BuildConfig} {schema : Schema}

/-- In the schema of a build every module is found by its identity, and by its name and revision; by a name
alone the latest module of that name is found, if there is one; and by a namespace all of its modules,
oldest first. -/
theorem modules_found (h : buildSchema sources config = .ok schema) :
    (∀ i m, schema.findModuleByIdentity i = some m ↔ m ∈ schema.modules ∧ m.identity = i) ∧
    (∀ name r m, schema.findModule name (some r) = some m ↔
      m ∈ schema.modules ∧ m.name = name ∧ m.revision = some r) ∧
    (∀ name m, schema.findModule name none = some m ↔ m ∈ schema.modules ∧ m.name = name ∧
      ∀ m' ∈ schema.modules, m'.name = name → m' ≠ m → Revision.Before m'.revision m.revision) ∧
    (∀ name, schema.findModule name none = none ↔ ∀ m ∈ schema.modules, m.name ≠ name) ∧
    ∀ uri, (schema.findModulesByNamespace uri).Perm
        (schema.modules.filter (·.identity.namespaceUri == uri)) ∧
      (schema.findModulesByNamespace uri).Pairwise fun m m' => Revision.Before m.revision m'.revision := by
  obtain ⟨modules, w, d, d', hcourse⟩ := exists_course h
  have hkeys : (schema.modules.map Module.key).Nodup := hcourse.toBuilds.nodup_keys
  have hname := Schema.distinguishes_name hkeys
  have huri := Schema.distinguishes_namespace fun m hm m' hm' => hcourse.module_unique hm hm'
  refine ⟨fun i m => ?_, fun name r m => ?_, fun name m => ?_, fun name => ?_, fun uri => ⟨?_, ?_⟩⟩
  · refine (Schema.find?_editions (huri i.namespaceUri)).trans (and_congr_right fun _ => ?_)
    rw [beq_iff_eq]
    exact (ModuleIdentity.mk.injEq ..).symm ▸ .rfl
  · refine (Schema.find?_editions (hname name)).trans ?_
    rw [beq_iff_eq]
  · refine (Schema.getLast?_editions (hname name)).trans ?_
    simp only [beq_iff_eq]
  · refine (Schema.getLast?_editions_eq_none (hname name)).trans ?_
    simp only [beq_iff_eq, ne_eq]
  · exact Schema.perm_editions (huri uri) (.of_map _ hkeys)
  · exact (schema.ordered_editions _).imp Revision.compare_eq_lt.1

end

/-! ## An example -/

/-- A module in the namespace `urn:m` that states a name and perhaps a revision. -/
def edition (name : String) (dates : List String) : ParsedSource where
  label := name ++ ".yang"
  root := .ok {
    keyword := .word .moduleWord
    argument := some name
    children := { keyword := .word .namespaceWord, argument := some "urn:m" } ::
      { keyword := .word .prefixWord, argument := some "m" } ::
      dates.map fun date => { keyword := .word .revision, argument := some date } }

/-- A module with a revision, the same module without one, and another module of the namespace. -/
def threeEditions : List ParsedSource :=
  [edition "m" ["2024-05-01"], edition "m" [], edition "n" ["2023-05-01"]]

/-- The dated revision is the latest; the namespace has all three. -/
theorem modules_found_threeEditions : ∃ schema m,
    buildSchema threeEditions {} = .ok schema ∧ schema.findModule "m" none = some m ∧
    m.revision.map Revision.text = some "2024-05-01" ∧
    (∀ m' ∈ schema.modules, m'.name = "m" → m' ≠ m → Revision.Before m'.revision m.revision) ∧
    (schema.findModulesByNamespace "urn:m").map Module.name = ["m", "n", "m"] ∧
    schema.findModuleByIdentity m.identity = some m := by
  have hcheck : ((buildSchema threeEditions {}).toOption.any fun schema =>
      decide ((schema.findModulesByNamespace "urn:m").map Module.name = ["m", "n", "m"]) &&
        (schema.findModule "m" none).any fun m =>
          decide (m.revision.map Revision.text = some "2024-05-01")) = true := by decide +kernel
  simp only [Option.any_eq_true, toOption_eq_some, Bool.and_eq_true, decide_eq_true_eq] at hcheck
  obtain ⟨schema, hschema, hnamespace, m, hm, hrevision⟩ := hcheck
  obtain ⟨hidentity, -, hlatest, -⟩ := modules_found hschema
  obtain ⟨hmem, -, hlater⟩ := (hlatest "m" m).1 hm
  exact ⟨schema, m, hschema, hm, hrevision, hlater, hnamespace, (hidentity _ m).2 ⟨hmem, rfl⟩⟩

end YangSchema
