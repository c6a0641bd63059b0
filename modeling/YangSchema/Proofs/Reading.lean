import YangSchema.Proofs.Faults

/-!
# What readers refuse

Statements are read into sources, paths, and parts of definitions.  What is not written as it should be
is malformed, in whatever phase it is read.  Names and paths, which are read when modules are declared,
may have prefixes that nothing is bound to, and a deviate may say nothing sensible.
-/

namespace YangSchema

variable {α β : Type} {p : Phase}

namespace FailsOnly

theorem malformed (problem : SyntaxProblem) :
    FailsOnly (Cause.Of p) (.error (.malformed problem) : Except Fault α) :=
  .error (Cause.of_malformed problem p)

theorem malformed_locate (problem : SyntaxProblem) (t : Trace) :
    FailsOnly (Cause.Of p) (.error ((Fault.malformed problem).locate t) : Except Fault α) :=
  .error (Cause.of_malformed problem p)

end FailsOnly

/-! ## Texts -/

theorem Statement.failsOnly_requireArgument (s : Statement) :
    FailsOnly (Cause.Of p) s.requireArgument := by
  unfold requireArgument
  split
  · exact .ok _
  · exact .malformed _

theorem Revision.failsOnly_parse (text : String) : FailsOnly (Cause.Of p) (parse text) := by
  unfold parse
  split
  · exact .ok _
  · exact .malformed _

theorem PathStep.failsOnly_parse (text : String) (step : List Char) :
    FailsOnly (Cause.Of p) (parse text step) := by
  have hnamed : ∀ (qualifier : Option String) (name : List Char), FailsOnly (Cause.Of p)
      (if isIdentifier name then .ok ⟨qualifier, String.ofList name⟩
      else .error (.malformed (.invalidPathStep (String.ofList step) text)) :
        Except Fault PathStep) := by
    intro qualifier name
    split
    · exact .ok _
    · exact .malformed _
  unfold parse
  dsimp only
  split
  · split
    · exact hnamed _ _
    · exact .malformed _
  · exact hnamed _ _

theorem PathExpr.failsOnly_parse (text : String) : FailsOnly (Cause.Of p) (parse text) := by
  unfold parse
  dsimp only
  split
  all_goals
    dsimp only
    split
    · exact .malformed _
    · exact .bind (.mapM _ fun step _ => PathStep.failsOnly_parse text step) fun _ _ => .ok _

theorem failsOnly_readBool (text : String) : FailsOnly (Cause.Of p) (readBool text) := by
  unfold readBool
  split
  · exact .ok _
  · exact .ok _
  · exact .malformed _

theorem failsOnly_readNatural (text : String) : FailsOnly (Cause.Of p) (readNatural text) := by
  unfold readNatural
  dsimp only
  split
  all_goals
    split
    · exact .ok _
    · exact .malformed _

theorem failsOnly_readBound (text : String) : FailsOnly (Cause.Of p) (readBound text) := by
  unfold readBound
  split
  · exact .ok _
  · exact (failsOnly_readNatural text).map _

/-! ## Headers -/

namespace Source

theorem failsOnly_requireChild (label : String) (root : Statement) (kind : SourceKind) (name : String)
    (k : Keyword) : FailsOnly (Cause.Of p) (requireChild label root kind name k) := by
  unfold requireChild
  split
  · exact .malformed_locate _ _
  · next s _ => exact (s.failsOnly_requireArgument.located _).bind fun _ _ => .ok _

theorem failsOnly_readRevision (s : Statement) : FailsOnly (Cause.Of p) (readRevision s) :=
  s.failsOnly_requireArgument.bind fun _ _ => Revision.failsOnly_parse _

theorem failsOnly_readRevisionDate (s : Statement) : FailsOnly (Cause.Of p) (readRevisionDate s) :=
  .optionMapM fun _ _ => failsOnly_readRevision _

theorem failsOnly_readImport (s : Statement) : FailsOnly (Cause.Of p) (readImport s) := by
  refine s.failsOnly_requireArgument.bind fun name _ => ?_
  split
  · exact (failsOnly_readRevisionDate s).bind fun _ _ => .ok _
  · exact .malformed _

theorem failsOnly_readInclude (s : Statement) : FailsOnly (Cause.Of p) (readInclude s) :=
  s.failsOnly_requireArgument.bind fun _ _ => (failsOnly_readRevisionDate s).bind fun _ _ => .ok _

theorem failsOnly_readAllegiance (label : String) (root : Statement) (kind : SourceKind)
    (name : String) : FailsOnly (Cause.Of p) (readAllegiance label root kind name) := by
  unfold readAllegiance
  cases kind with
  | module =>
    refine (failsOnly_requireChild label root .module name _).bind fun _ _ => ?_
    exact (failsOnly_requireChild label root .module name _).bind fun _ _ => .ok _
  | submodule =>
    refine (failsOnly_requireChild label root .submodule name _).bind fun x _ => ?_
    dsimp only
    split
    · exact .ok _
    · exact .malformed_locate _ _

theorem failsOnly_checkKnown (label : String) (s : Statement) :
    FailsOnly (Cause.Of p) (checkKnown label s) := by
  unfold checkKnown
  split
  · exact .malformed_locate _ _
  · exact .ok _

theorem failsOnly_analyze (label : String) (root : Statement) :
    FailsOnly (Cause.Of p) (analyze label root) := by
  unfold analyze
  extract_lets rest
  have hrest : ∀ kind, FailsOnly (Cause.Of p) (rest kind) := by
    intro kind
    refine (root.failsOnly_requireArgument.located _).bind fun name _ => ?_
    refine .bind (.forM _ fun s _ => failsOnly_checkKnown label s) fun _ _ => ?_
    refine (failsOnly_readAllegiance label root kind name).bind fun _ _ => ?_
    refine .bind (.mapM _ fun s _ => (failsOnly_readRevision s).located _) fun _ _ => ?_
    refine .bind (.mapM _ fun s _ => (failsOnly_readImport s).located _) fun _ _ => ?_
    exact .bind (.mapM _ fun s _ => (failsOnly_readInclude s).located _) fun _ _ => .ok _
  split
  · exact hrest .module
  · exact hrest .submodule
  · exact .malformed_locate _ _

end Source

/-! ## Names and paths -/

namespace Prefixes

variable (b : Prefixes)

theorem failsOnly_moduleOf (q : Option String) :
    FailsOnly (Cause.Of .fullDeclaration) (b.moduleOf q) := by
  unfold moduleOf
  split
  · exact .ok _
  · split
    · exact .ok _
    · split
      · exact .ok _
      · exact .error (List.mem_cons_self)

theorem failsOnly_qname (text : String) : FailsOnly (Cause.Of .fullDeclaration) (b.qname text) := by
  unfold qname
  split
  next q name _ =>
  split
  · exact .malformed _
  · exact (b.failsOnly_moduleOf q).bind fun _ _ => .ok _

theorem failsOnly_path (e : PathExpr) : FailsOnly (Cause.Of .fullDeclaration) (b.path e) :=
  .bind (.mapM _ fun s _ => (b.failsOnly_moduleOf s.qualifier).bind fun _ _ => .ok _) fun _ _ => .ok _

end Prefixes

/-! ## Parts of definitions -/

namespace Statement

variable (s : Statement)

theorem failsOnly_valueOf {read : String → Except Fault α}
    (hread : ∀ text, FailsOnly (Cause.Of p) (read text)) (w : Word) :
    FailsOnly (Cause.Of p) (s.valueOf read w) :=
  .optionMapM fun text _ => hread text

theorem failsOnly_documentation : FailsOnly (Cause.Of p) s.documentation := by
  refine .bind (s.failsOnly_valueOf (fun text => ?_) _) fun _ _ => .ok _
  unfold readStatus
  split
  · exact .ok _
  · exact .malformed _

theorem failsOnly_constraints : FailsOnly (Cause.Of p) s.constraints := by
  refine (s.failsOnly_valueOf failsOnly_readBool _).bind fun _ _ => ?_
  refine (s.failsOnly_valueOf failsOnly_readNatural _).bind fun _ _ => ?_
  exact (s.failsOnly_valueOf failsOnly_readBound _).bind fun _ _ => .ok _

theorem failsOnly_nodeName : FailsOnly (Cause.Of p) s.nodeName := by
  unfold nodeName
  split
  · exact .ok _
  · exact .ok _
  · exact s.failsOnly_requireArgument

variable {s} {b : Prefixes}

theorem failsOnly_nodeKind? {kind : Except Fault NodeKind} (h : s.nodeKind? b = some kind) :
    FailsOnly (Cause.Of .fullDeclaration) kind := by
  unfold nodeKind? at h
  split at h
  · split at h
    all_goals
      first
        | (cases h; exact .ok _)
        | (cases h; exact .map _ (.mapM _ fun _ _ => b.failsOnly_qname _))
        | cases h
  · cases h

theorem failsOnly_unknown? {unknown : Except Fault UnknownStatement}
    (h : s.unknown? b = some unknown) : FailsOnly (Cause.Of .fullDeclaration) unknown := by
  unfold unknown? at h
  split at h
  · cases h
    exact (b.failsOnly_moduleOf _).bind fun _ _ => .ok _
  · cases h

/-! ## Deviates -/

theorem failsOnly_deviateProperty : FailsOnly (Cause.Of .fullDeclaration) s.deviateProperty := by
  have hstated : ∀ {α : Type} (make : α → DeviateProperty) {read : String → Except Fault α},
      (∀ text, FailsOnly (Cause.Of .fullDeclaration) (read text)) →
      FailsOnly (Cause.Of .fullDeclaration) (do
        return some (make (← read (← s.requireArgument))) : Except Fault (Option DeviateProperty)) :=
    fun make _ hread => s.failsOnly_requireArgument.bind fun text _ =>
      (hread text).bind fun _ _ => .ok _
  have hdeviable : ∀ text, FailsOnly (Cause.Of .fullDeclaration)
      (.error (.malformedDeviation (.notDeviable text)) : Except Fault (Option DeviateProperty)) :=
    fun text => .error List.mem_cons_self
  unfold deviateProperty
  dsimp only
  split
  · exact .ok _
  · split
    case h_1 | h_3 => exact hstated _ failsOnly_readBool
    case h_4 => exact hstated _ failsOnly_readNatural
    case h_5 => exact hstated _ failsOnly_readBound
    case h_2 | h_6 | h_7 | h_8 | h_9 => exact hstated _ fun _ => .ok _
    case h_10 | h_11 => exact .ok _
    case h_12 => exact hdeviable _
  · exact hdeviable _

theorem failsOnly_readDeviate : FailsOnly (Cause.Of .fullDeclaration) s.readDeviate := by
  refine s.failsOnly_requireArgument.bind fun text _ => ?_
  split
  · refine .bind (.mapM _ fun _ _ => failsOnly_deviateProperty) fun properties _ => ?_
    dsimp only
    split
    · exact .error List.mem_cons_self
    · exact .ok _
  · exact .error List.mem_cons_self

end Statement

end YangSchema
