import YangSchema.Proofs.Declaration.Targets
import YangSchema.Proofs.Declaration.Rules
import YangSchema.Proofs.Draft.Entries

/-!
# What a source gives its module

`Prefixes.entry?` says what one statement at the top of a source gives the module.  Declaring a source
gives its module exactly this for every statement, once, and gives the other modules nothing, whatever
is in the bodies below (`Setting.gives_declareSource_brings`).  The statements are declared in three
rounds: first those that stand only at the top, then the groupings, then the rest of the body.
-/

namespace YangSchema

open Draft Edit Declare

/-! ## What a statement gives -/

namespace Prefixes

/-- The name that a statement defines in the own module. -/
def defined (b : Prefixes) (c : Statement) : Except Fault QName := b.ownName <$> c.requireArgument

/-- The path that a statement names. -/
def target (b : Prefixes) (c : Statement) : Except Fault SchemaPath := do
  b.path (← PathExpr.parse (← c.requireArgument))

/-- What a statement gives the module that is neither a node nor an instance of an extension. -/
def plainEntry? (b : Prefixes) (c : Statement) : Except Fault (Option Entry) :=
  match c.keyword with
  | .word .grouping => (some <| .grouping ·) <$> b.defined c
  | .word .typedef => (some <| .typedef ·) <$> b.defined c
  | .word .uses => (some <| .uses <| SchemaPath.root.child ·) <$> (c.requireArgument >>= b.qname)
  | .word .extensionWord => (some <| .extension ·) <$> b.defined c
  | .word .feature => (some <| .feature ·) <$> b.defined c
  | .word .identity => (some <| .identity ·) <$> b.defined c
  | .word .augment => (some <| .augmentation ·) <$> b.target c
  | .word .deviation => (some <| .deviation ·) <$> b.target c
  | _ => .ok none

/-- What a statement at the top of a source gives the module, if it defines anything. -/
def entry? (b : Prefixes) (c : Statement) : Except Fault (Option Entry) :=
  match c.nodeKind? b, c.unknown? b with
  | some _, _ => (some <| .child <| b.ownName ·) <$> c.nodeName
  | none, some unknown => (some <| .unknown ·) <$> unknown
  | none, none => b.plainEntry? c

/-- What the statements at the top of a source give the module. -/
def entries (b : Prefixes) (root : Statement) : Except Fault (List Entry) :=
  List.reduceOption <$> root.children.mapM b.entry?

variable {b : Prefixes} {c : Statement}

theorem defined_of_requireArgument {text : String} (h : c.requireArgument = .ok text) :
    b.defined c = .ok (b.ownName text) := by
  unfold defined
  rw [h]
  rfl

theorem entry?_of_nodeKind? {kind : Except Fault NodeKind} (h : c.nodeKind? b = some kind) :
    b.entry? c = (some <| .child <| b.ownName ·) <$> c.nodeName := by
  unfold entry?
  rw [h]

theorem entry?_of_unknown? {u : Except Fault UnknownStatement} (h : c.nodeKind? b = none)
    (hu : c.unknown? b = some u) : b.entry? c = (some <| .unknown ·) <$> u := by
  unfold entry?
  rw [h, hu]

/-- What is neither a node nor an instance of an extension is given as its keyword says. -/
theorem entry?_of_plain (h : c.nodeKind? b = none) (hu : c.unknown? b = none) :
    b.entry? c = b.plainEntry? c := by
  unfold entry?
  rw [h, hu]

/-- What the statement gives the module, as a multiset. -/
def given (b : Prefixes) (c : Statement) : Multiset Entry :=
  ((b.entry? c).toOption.join.toList : List Entry)

theorem given_of_entry? {o : Option Entry} (h : b.entry? c = .ok o) :
    b.given c = (o.toList : List Entry) := by
  unfold given
  rw [h]
  rfl

/-- Where every statement can be read, the entries are what the statements give. -/
theorem exists_reduceOption {l : List Statement} (h : ∀ c ∈ l, ∃ o, b.entry? c = .ok o) :
    ∃ os, l.mapM b.entry? = .ok os ∧
      (os.reduceOption : Multiset Entry) = (l.map b.given).sum := by
  induction l with
  | nil => exact ⟨[], rfl, rfl⟩
  | cons c l ih =>
    obtain ⟨o, ho⟩ := h c List.mem_cons_self
    obtain ⟨os, hos, hsum⟩ := ih fun c hc => h c (List.mem_cons_of_mem _ hc)
    refine ⟨o :: os, by rw [List.mapM_cons, ho, hos]; rfl, ?_⟩
    rw [List.map_cons, List.sum_cons, given_of_entry? ho, ← hsum, Multiset.coe_add]
    cases o <;> rfl

theorem exists_entries {root : Statement} (h : ∀ c ∈ root.children, ∃ o, b.entry? c = .ok o) :
    ∃ es, b.entries root = .ok es ∧ (es : Multiset Entry) = (root.children.map b.given).sum := by
  obtain ⟨os, hos, hsum⟩ := exists_reduceOption h
  refine ⟨os.reduceOption, ?_, hsum⟩
  unfold entries
  rw [hos]
  rfl

end Prefixes

namespace Statement

variable {c : Statement}

/-- The statement is declared before the body of its source. -/
def atTop (c : Statement) : Bool :=
  match c.keyword with
  | .word .extensionWord | .word .feature | .word .identity => true
  | .word .augment | .word .deviation => true
  | _ => false

/-- The statement is declared with the body of its source, after the groupings. -/
def inBody (c : Statement) : Bool := !c.atTop && c.keyword != .word .grouping

theorem not_inBody_iff : c.inBody = false ↔ c.atTop = true ∨ c.keyword = .word .grouping := by
  unfold inBody
  cases c.atTop <;> simp

theorem keyword_ne_grouping_of_atTop (h : c.atTop = true) : c.keyword ≠ .word .grouping := by
  intro hkeyword
  unfold atTop at h
  rw [hkeyword] at h
  cases h

/-- The statements of a source in the order in which they are declared. -/
theorem perm_declared (l : List Statement) :
    (l.filter atTop ++ l.filter (·.keyword == .word .grouping) ++ l.filter inBody).Perm l := by
  have hgroupings : (l.filter (!atTop ·)).filter (·.keyword == .word .grouping) =
      l.filter (·.keyword == .word .grouping) := by
    rw [List.filter_filter]
    refine List.filter_congr fun c _ => ?_
    by_cases hc : c.atTop = true
    · simp [hc, keyword_ne_grouping_of_atTop hc]
    · simp [hc]
  have hbody : (l.filter (!atTop ·)).filter (!·.keyword == .word .grouping) = l.filter inBody := by
    rw [List.filter_filter]
    refine List.filter_congr fun c _ => ?_
    unfold inBody
    rw [Bool.and_comm]
    rfl
  rw [List.append_assoc, ← hgroupings, ← hbody]
  refine .trans (.append_left _ ?_) (List.filter_append_perm atTop l)
  exact List.filter_append_perm _ _

/-- What is declared before the body is no node and no instance of an extension. -/
theorem kinds_of_not_inBody (h : c.inBody = false) (b : Prefixes) :
    c.nodeKind? b = none ∧ c.unknown? b = none := by
  rcases not_inBody_iff.1 h with h | hkeyword
  · unfold atTop at h
    split at h
    all_goals
      first
        | (next hkeyword => simp [nodeKind?, unknown?, hkeyword]; done)
        | cases h
  · simp [nodeKind?, unknown?, hkeyword]

theorem inBody_of_nodeKind? {b : Prefixes} {kind : Except Fault NodeKind}
    (h : c.nodeKind? b = some kind) : c.inBody = true := by
  refine Bool.eq_true_of_not_eq_false fun hin => ?_
  rw [(kinds_of_not_inBody hin b).1] at h
  cases h

theorem inBody_of_unknown? {b : Prefixes} {u : Except Fault UnknownStatement}
    (h : c.unknown? b = some u) : c.inBody = true := by
  refine Bool.eq_true_of_not_eq_false fun hin => ?_
  rw [(kinds_of_not_inBody hin b).2] at h
  cases h

/-- Apart from uses and type definitions, what is in the body gives nothing by its keyword. -/
theorem plainEntry?_of_inBody {b : Prefixes} (hin : c.inBody = true) (huses : c.keyword ≠ .word .uses)
    (htypedef : c.keyword ≠ .word .typedef) : b.plainEntry? c = .ok none := by
  have hno : ¬ (c.atTop = true ∨ c.keyword = .word .grouping) := by
    intro h
    rw [not_inBody_iff.2 h] at hin
    cases hin
  rw [not_or] at hno
  unfold Prefixes.plainEntry?
  split
  · next hkeyword => exact absurd hkeyword hno.2
  · next hkeyword => exact absurd hkeyword htypedef
  · next hkeyword => exact absurd hkeyword huses
  iterate 5 next hkeyword => exact absurd (by simp [atTop, hkeyword]) hno.1
  · rfl

theorem ListsAs.atTop {q : QName} {f : ModuleFacts → ModuleFacts} (h : c.ListsAs q f) :
    c.atTop = true := by
  unfold Statement.atTop
  cases h with
  | _ hkeyword => rw [hkeyword]

/-- A definition gives its module one entry, the one that the update adds. -/
theorem ListsAs.exists_entry {b : Prefixes} {q : QName} {f : ModuleFacts → ModuleFacts}
    (h : c.ListsAs q f) : ∃ x : QName → Entry,
      b.plainEntry? c = (some <| x ·) <$> b.defined c ∧ ∀ (d : Draft) (r : ModuleDraft),
        d.entriesOf { r with facts := f r.facts } = d.entriesOf r + {x q} := by
  unfold Prefixes.plainEntry?
  cases h with
  | extension hkeyword x hx =>
    refine ⟨.extension, by rw [hkeyword], fun d r => ?_⟩
    simp only [entriesOf, coe_map_concat, hx]
    abel
  | feature hkeyword x hx =>
    refine ⟨.feature, by rw [hkeyword], fun d r => ?_⟩
    simp only [entriesOf, coe_map_concat, hx]
    abel
  | identity hkeyword x hx =>
    refine ⟨.identity, by rw [hkeyword], fun d r => ?_⟩
    simp only [entriesOf, coe_map_concat, hx]
    abel

end Statement

namespace Setting

variable {k : Setting} {s : Site} {w w' w'' : Workspace} {stmt : Statement}

/-- From `w` to `w'` what the statements give is put at the site. -/
structure Brings (k : Setting) (s : Site) (l : List Statement) (w w' : Workspace) : Prop where
  readable : ∀ c ∈ l, ∃ o, k.prefixes.entry? c = .ok o
  gains : w.draft.Gains (s.gains (l.map k.prefixes.given).sum) w'.draft

namespace Brings

variable {l l' : List Statement}

theorem nil (h : w.draft.Gains 0 w'.draft) : k.Brings s [] w w' :=
  ⟨by simp, by simpa using h⟩

theorem single {o : Option Entry} (ho : k.prefixes.entry? stmt = .ok o)
    (h : w.draft.Gains (s.gains (o.toList : List Entry)) w'.draft) : k.Brings s [stmt] w w' :=
  ⟨by simpa using ⟨o, ho⟩, by simpa [Prefixes.given_of_entry? ho] using h⟩

theorem append (h : k.Brings s l w w') (h' : k.Brings s l' w' w'') : k.Brings s (l ++ l') w w'' where
  readable c hc := (List.mem_append.1 hc).elim (h.readable c) (h'.readable c)
  gains := by
    rw [List.map_append, List.sum_append, Site.gains_add]
    exact h.gains.trans h'.gains

theorem perm (h : k.Brings s l w w') (hl : l.Perm l') : k.Brings s l' w w' where
  readable c hc := h.readable c (hl.mem_iff.2 hc)
  gains := by
    rw [← (hl.map _).sum_eq]
    exact h.gains

theorem of_inBody {o : Option Entry} (hin : stmt.inBody = true) (ho : k.prefixes.entry? stmt = .ok o)
    (h : w.draft.Gains (s.gains (o.toList : List Entry)) w'.draft) :
    k.Brings s ([stmt].filter Statement.inBody) w w' := by
  rw [List.filter_singleton, hin]
  exact .single ho h

theorem of_not_inBody (hin : stmt.inBody = false) :
    k.Brings s ([stmt].filter Statement.inBody) w w := by
  rw [List.filter_singleton, hin]
  exact .nil (.refl _)

/-- At other sites nothing is put into the modules. -/
theorem quiet (h : k.Brings s l w w') (hs : ∀ m, s ≠ .module m) : w.draft.Gains 0 w'.draft := by
  have := h.gains
  cases s with
  | module m => exact absurd rfl (hs m)
  | _ => exact this

end Brings

/-- A loop over statements brings what those of them that count give. -/
theorem gives_forM_brings {p : Statement → Bool} {f : Statement → Declare PUnit} (l : List Statement)
    (hf : ∀ c ∈ l, ∀ w, Gives (f c) w fun _ w' => k.Brings s ([c].filter p) w w') :
    Gives (l.forM f) w fun _ w' => k.Brings s (l.filter p) w w' := by
  refine gives_forM (I := fun pre w' => k.Brings s (pre.filter p) w w') l (.nil (.refl _)) ?_
  intro pre c post w₁ hl h₁
  refine (hf c (by rw [hl]; simp) w₁).mono fun _ w₂ h₂ => ?_
  rw [List.filter_append]
  exact h₁.append h₂

theorem gives_declareGrouping_gains : Gives (k.declareGrouping s stmt) w fun _ w' =>
    ∃ q, k.prefixes.defined stmt = .ok q ∧ w.draft.Gains (s.gains {.grouping q}) w'.draft := by
  unfold declareGrouping
  rw [gives_bind, gives_check]
  intro text htext
  rw [gives_bind, gives_check]
  intro docs _
  rw [gives_bind, gives_get, gives_bind]
  refine gives_edit ((ends_addGrouping _).2 ?_)
  generalize hr : ({
      facts := {
        name := k.prefixes.ownName text
        path := (w.draft.pathOf s).child (k.prefixes.ownName text)
        docs } } : GroupingDraft) = r
  have hname : ((w.draft.withGrouping r).grouping ⟨w.draft.groupings.size⟩).facts.name =
      k.prefixes.ownName text := by rw [grouping_withGrouping_self, ← hr]
  have hlt : w.draft.groupings.size < (w.draft.withGrouping r).groupings.size :=
    Shelf.lt_size_push _ _
  rw [gives_bind]
  refine gives_edit ((ends_pushGrouping_gains (g := ⟨w.draft.groupings.size⟩) hlt).mono
    (fun _ d' h => ?_) fun _ _ => id)
  rw [gives_pure]
  rw [hname] at h
  exact ⟨_, Prefixes.defined_of_requireArgument htext,
    ((KeepsNames.withGrouping _ r).gains (fun _ _ => rfl) (Nat.le_refl _)).quiet_trans h⟩

theorem gives_declareTypedef_gains : Gives (k.declareTypedef s stmt) w fun _ w' =>
    ∃ q, k.prefixes.defined stmt = .ok q ∧ w.draft.Gains (s.gains {.typedef q}) w'.draft := by
  unfold declareTypedef
  rw [gives_bind, gives_check]
  intro text htext
  dsimp only
  split
  · rw [gives_bind, gives_check]
    intro docs _
    refine gives_edit ((ends_pushTypedef_gains _).mono (fun _ d' h => ?_) fun _ _ => id)
    exact ⟨_, Prefixes.defined_of_requireArgument htext, h⟩
  · exact gives_throw _

theorem gives_declareNode_gains {kind : Except Fault NodeKind} :
    Gives (k.declareNode s stmt kind) w fun _ w' => ∃ text, stmt.nodeName = .ok text ∧
      w.draft.Gains (s.gains {.child (k.prefixes.ownName text)}) w'.draft := by
  unfold declareNode
  rw [gives_bind, gives_check]
  intro text htext
  rw [gives_bind, gives_check]
  intro kind' _
  rw [gives_bind, gives_check]
  intro docs _
  rw [gives_bind, gives_check]
  intro config _
  rw [gives_bind, gives_check]
  intro constraints _
  dsimp only
  rw [gives_bind]
  refine gives_edit ((ends_addNode _).2 ?_)
  generalize hr : ({ NodeDraft.blank kind' (k.prefixes.ownName text) with
      config
      facts := { (NodeDraft.blank kind' (k.prefixes.ownName text)).facts with
        docs, constraints, properties := stmt.properties kind' } } : NodeDraft) = r
  have hname : ((w.draft.withNode r).node ⟨w.draft.nodes.size⟩).name = k.prefixes.ownName text := by
    rw [node_withNode_self, ← hr]
    rfl
  have hlt : w.draft.nodes.size < (w.draft.withNode r).nodes.size := Shelf.lt_size_push _ _
  rw [gives_bind, gives_discard]
  refine gives_edit ((ends_attach_gains (c := ⟨w.draft.nodes.size⟩) hlt).mono
    (fun _ d' h => ?_) fun _ _ => id)
  rw [gives_pure]
  rw [hname] at h
  exact ⟨text, htext,
    ((KeepsNames.withNode _ r).gains (fun _ _ => rfl) (Nat.le_refl _)).quiet_trans h⟩

theorem gives_declareAugment_gains {target : SchemaPath} {order : Nat} :
    Gives (k.declareAugment stmt target order) w fun a w' => w.draft.Gains 0 w'.draft ∧
      a.index < w'.draft.augments.size ∧ (w'.draft.augment a).facts.target = target := by
  unfold declareAugment
  rw [gives_bind, gives_check]
  intro docs _
  refine gives_edit ((ends_addAugment _).2 ⟨?_, ?_, ?_⟩)
  · exact (KeepsNames.withAugment _ _).gains (fun _ _ => rfl) (Nat.le_refl _)
  · exact Shelf.lt_size_push _ _
  · rw [augment_withAugment_self]

/-! ## Bodies -/

/-- A way to declare bodies that leaves the modules alone if the body is not at the top of one. -/
def QuietBodies (body : BodyDeclarer) : Prop :=
  ∀ (s : Site) (stmt : Statement) (scope : Scope) (enclosing : List Owner) (w : Workspace),
    (∀ m, s ≠ .module m) → Gives (body s stmt scope enclosing) w fun _ w' => w.draft.Gains 0 w'.draft

section

variable {body : BodyDeclarer} {scope : Scope} {enclosing : List Owner}

theorem gives_declareUses_gains (hbody : QuietBodies body) :
    Gives (k.declareUses body s stmt scope enclosing) w fun _ w' => ∃ q,
      (stmt.requireArgument >>= k.prefixes.qname) = .ok q ∧
        w.draft.Gains (s.gains {.uses (SchemaPath.root.child q)}) w'.draft := by
  unfold declareUses
  rw [gives_bind, gives_check]
  intro q hq
  rw [gives_bind]
  refine gives_edit ((ends_addUses _).2 ?_)
  generalize hr : ({ facts := { grouping := SchemaPath.root.child q } } : UsesDraft) = r
  have hgrouping : ((w.draft.withUses r).usesOf ⟨w.draft.uses.size⟩).facts.grouping =
      SchemaPath.root.child q := by rw [usesOf_withUses_self, ← hr]
  have hlt : w.draft.uses.size < (w.draft.withUses r).uses.size := Shelf.lt_size_push _ _
  rw [gives_bind]
  refine gives_edit ((ends_pushUses_gains (u := ⟨w.draft.uses.size⟩) hlt).mono
    (fun _ d₁ h₁ => ?_) fun _ _ => id)
  rw [hgrouping] at h₁
  replace h₁ := ((KeepsNames.withUses w.draft r).gains (fun _ _ => rfl) (Nat.le_refl _)).quiet_trans h₁
  -- the refines are read
  rw [gives_bind]
  refine (gives_readAll _).mono ?_
  rintro refines w₂ ⟨rfl, -⟩
  rw [gives_bind]
  refine gives_edit ((ends_editUses_gains (by intro; rfl) _).mono (fun _ d₃ h₃ => ?_) fun _ _ => id)
  replace h₃ := h₁.trans_quiet h₃
  -- the augmentations stand in the uses, not in a module
  rw [gives_bind]
  refine (gives_forM (I := fun _ w' => w.draft.Gains (s.gains {.uses (SchemaPath.root.child q)}) w'.draft)
    _ h₃ ?_).mono ?_
  · intro pre c post w₄ _ h₄
    rw [gives_located, gives_bind, gives_check]
    intro target _
    rw [gives_bind, gives_nextOrder, gives_bind]
    refine gives_declareAugment_gains.mono fun a w₅ ⟨h₅, _, _⟩ => ?_
    rw [gives_bind]
    refine (hbody (.augment a) c scope _ w₅ (by simp)).mono fun _ w₆ h₆ => ?_
    refine gives_edit ((ends_editUses_gains (by intro; rfl) _).mono (fun _ d₇ h₇ => ?_) fun _ _ => id)
    exact ((h₄.trans_quiet h₅).trans_quiet h₆).trans_quiet h₇
  · intro _ w₄ h₄
    exact (gives_addUsesTask _).2 ⟨q, hq, h₄⟩

/-- A statement of a body brings what it gives, unless that was declared before. -/
theorem gives_declareStatement_brings (hbody : QuietBodies body) :
    Gives (k.declareStatement body s stmt scope enclosing) w fun _ w' =>
      k.Brings s ([stmt].filter Statement.inBody) w w' := by
  refine gives_declareStatement_of (fun kind hkind => ?_) (fun unknown u hkind hunknown hu => ?_)
    (fun hkind hunknown hkeyword => ?_) (fun hkind hunknown hkeyword => ?_)
    fun hkind hunknown huses htypedef _ => ?_
  · refine gives_declareNode_gains.mono fun i w₁ ⟨text, htext, h₁⟩ => ?_
    refine (hbody (.node i) stmt scope enclosing w₁ (by simp)).mono fun _ w₂ h₂ => ?_
    refine .of_inBody (o := some (.child (k.prefixes.ownName text))) (Statement.inBody_of_nodeKind? hkind)
      ?_ (h₁.trans_quiet h₂)
    rw [Prefixes.entry?_of_nodeKind? hkind, htext]
    rfl
  · refine gives_edit ((ends_pushUnknown_gains u).mono (fun _ d' h => ?_) fun _ _ => id)
    refine .of_inBody (o := some (.unknown u)) (Statement.inBody_of_unknown? hunknown) ?_ h
    rw [Prefixes.entry?_of_unknown? hkind hunknown, hu]
    rfl
  · refine (gives_declareUses_gains hbody).mono fun _ w' ⟨q, hq, h⟩ => ?_
    refine .of_inBody (o := some (.uses (SchemaPath.root.child q))) ?_ ?_ h
    · simp [Statement.inBody, Statement.atTop, hkeyword]
    · rw [Prefixes.entry?_of_plain hkind hunknown, Prefixes.plainEntry?, hkeyword]
      simp only [hq]
      rfl
  · refine gives_declareTypedef_gains.mono fun _ w' ⟨q, hq, h⟩ => ?_
    refine .of_inBody (o := some (.typedef q)) ?_ ?_ h
    · simp [Statement.inBody, Statement.atTop, hkeyword]
    · rw [Prefixes.entry?_of_plain hkind hunknown, Prefixes.plainEntry?, hkeyword]
      simp only [hq]
      rfl
  · cases hin : stmt.inBody with
    | false => exact .of_not_inBody hin
    | true =>
      have hnone := Statement.plainEntry?_of_inBody (b := k.prefixes) hin huses htypedef
      exact .of_inBody (o := none) hin ((Prefixes.entry?_of_plain hkind hunknown).trans hnone)
        (by simpa using .refl _)

end

/-- What stands before the body is given as its keyword says. -/
theorem entry?_of_not_inBody (h : stmt.inBody = false) :
    k.prefixes.entry? stmt = k.prefixes.plainEntry? stmt := by
  obtain ⟨hkind, hunknown⟩ := Statement.kinds_of_not_inBody h k.prefixes
  exact Prefixes.entry?_of_plain hkind hunknown

theorem gives_declareBodyUpTo_brings (fuel : Nat) :
    ∀ (s : Site) (stmt : Statement) (scope : Scope) (enclosing : List Owner) (w : Workspace),
      Gives (k.declareBodyUpTo fuel s stmt scope enclosing) w fun _ w' => k.Brings s
        (stmt.children.filter (·.keyword == .word .grouping) ++ stmt.children.filter Statement.inBody)
        w w' := by
  induction fuel with
  | zero => exact fun _ _ _ _ _ => gives_throw _
  | succ fuel ih =>
    intro s stmt scope enclosing w
    have hquiet : QuietBodies (k.declareBodyUpTo fuel) := fun s stmt scope enclosing w hs =>
      (ih s stmt scope enclosing w).mono fun _ w' h => h.quiet hs
    rw [declareBodyUpTo, gives_bind]
    -- the groupings
    refine (gives_mapM (I := fun pre _ w' => k.Brings s pre w w') (stmt.all (.word .grouping))
      (.nil (.refl _)) ?_).mono ?_
    · intro pre c post rs w₁ hl h₁
      have hc : c ∈ stmt.all (.word .grouping) := by rw [hl]; simp
      have hkeyword : c.keyword = .word .grouping := by simpa using (List.mem_filter.1 hc).2
      rw [gives_located, gives_bind]
      refine gives_declareGrouping_gains.mono fun r w₂ ⟨q, hq, h₂⟩ => ?_
      rw [gives_pure]
      refine h₁.append (.single (o := some (.grouping q)) ?_ h₂)
      rw [entry?_of_not_inBody (Statement.not_inBody_iff.2 (.inr hkeyword)), Prefixes.plainEntry?,
        hkeyword]
      show (some <| Entry.grouping ·) <$> k.prefixes.defined c = _
      rw [hq]
      rfl
    intro rs w₁ h₁
    dsimp only
    rw [gives_bind]
    -- their bodies
    refine (gives_forM (I := fun _ w' => k.Brings s (stmt.all (.word .grouping)) w w') rs h₁ ?_).mono ?_
    · rintro pre ⟨⟨q, g⟩, c⟩ post w₂ - h₂
      rw [gives_located]
      refine (hquiet (.grouping g) c _ _ w₂ (by simp)).mono fun _ w₃ h₃ => ?_
      have := h₂.append (.nil h₃)
      rwa [List.append_nil] at this
    -- the other statements
    intro _ w₂ h₂
    refine (gives_forM_brings (p := Statement.inBody) _ fun c _ w₃ => ?_).mono
      fun _ w₃ h₃ => h₂.append h₃
    rw [gives_located]
    exact gives_declareStatement_brings hquiet

theorem quietBodies (k : Setting) (fuel : Nat) : QuietBodies (k.declareBodyUpTo fuel) :=
  fun s stmt scope enclosing w hs =>
    (gives_declareBodyUpTo_brings fuel s stmt scope enclosing w).mono fun _ _ h => h.quiet hs

/-! ## Sources -/

theorem target_of_absolutePath {what : String} {p : SchemaPath}
    (h : k.absolutePath what stmt = .ok p) : k.prefixes.target stmt = .ok p := by
  unfold absolutePath at h
  obtain ⟨text, htext, h⟩ := exists_of_bind_eq_ok h
  obtain ⟨e, he, h⟩ := exists_of_bind_eq_ok h
  unfold Prefixes.target
  rw [htext]
  show (PathExpr.parse text >>= k.prefixes.path) = _
  rw [he]
  split at h
  · cases h
  · exact h

theorem gives_editFacts_gains {f : ModuleFacts → ModuleFacts} {x : Multiset Entry}
    (hf : ∀ (d : Draft) (r : ModuleDraft),
      d.entriesOf { r with facts := f r.facts } = d.entriesOf r + x) :
    Gives (k.editFacts f) w fun _ w' => w.draft.Gains ((Site.module k.target).gains x) w'.draft :=
  gives_edit ((ends_editFacts_gains (hf w.draft) k.target).mono (fun _ _ h => h) fun _ _ => id)

theorem gives_declareTopAugment_gains : Gives (k.declareTopAugment stmt) w fun _ w' =>
    ∃ p, k.prefixes.target stmt = .ok p ∧
      w.draft.Gains ((Site.module k.target).gains {.augmentation p}) w'.draft := by
  unfold declareTopAugment
  rw [gives_bind, gives_check]
  intro p hp
  rw [gives_bind, gives_nextOrder, gives_bind]
  refine gives_declareAugment_gains.mono fun a w₁ ⟨h₁, ha, htarget⟩ => ?_
  rw [gives_bind]
  have hlists : ∀ r, w₁.draft.entriesOf { r with augmentations := r.augmentations ++ [a] } =
      w₁.draft.entriesOf r + {.augmentation p} := by
    intro r
    simp only [entriesOf, coe_map_concat, htarget]
    abel
  refine gives_edit ((ends_editModule_gains (fun r hr => ?_) hlists k.target).mono
    (fun _ d₂ h₂ => ?_) fun _ _ => id)
  · exact { hr with augmentations := by simpa [or_imp, forall_and, ha] using hr.augmentations }
  rw [gives_bind]
  refine (k.quietBodies stmt.depth (.augment a) stmt [] _ _ (by simp)).mono fun _ w₃ h₃ => ?_
  exact (gives_addAugmentTask _).2
    ⟨p, target_of_absolutePath hp, (h₁.quiet_trans h₂).trans_quiet h₃⟩

theorem gives_declareDeviation_gains : Gives (k.declareDeviation stmt) w fun _ w' =>
    ∃ p, k.prefixes.target stmt = .ok p ∧
      w.draft.Gains ((Site.module k.target).gains {.deviation p}) w'.draft := by
  refine gives_declareDeviation_of fun x deviated hx _ => ?_
  refine (gives_editFacts_gains (x := {.deviation x.target}) fun d r => ?_).mono fun _ w₂ h₂ => ?_
  · simp only [entriesOf, coe_map_concat]
    abel
  · exact ⟨⟨_, target_of_absolutePath hx, h₂⟩, fun _ => ⟨_, target_of_absolutePath hx, h₂⟩⟩

/-- What a statement gives that stands only at the top of a source is brought as it is. -/
theorem brings_of_atTop {x : Entry} {w' : Workspace} (htop : stmt.atTop = true)
    (hx : k.prefixes.plainEntry? stmt = .ok (some x))
    (h : w.draft.Gains ((Site.module k.target).gains {x}) w'.draft) :
    k.Brings (.module k.target) ([stmt].filter Statement.atTop) w w' := by
  have hentry := entry?_of_not_inBody (k := k) (Statement.not_inBody_iff.2 (.inl htop))
  rw [List.filter_singleton, htop]
  exact .single (hentry.trans hx) h

/-- A definition at the top of a source is brought by the update that lists it. -/
theorem gives_editFacts_brings {f : ModuleFacts → ModuleFacts} {text : String}
    (htext : stmt.requireArgument = .ok text) (hf : stmt.ListsAs (k.prefixes.ownName text) f) :
    Gives (k.editFacts f) w fun _ w' =>
      k.Brings (.module k.target) ([stmt].filter Statement.atTop) w w' := by
  obtain ⟨x, hx, hlists⟩ := hf.exists_entry
  refine (gives_editFacts_gains fun d r => hlists d r).mono fun _ w' h => brings_of_atTop hf.atTop ?_ h
  rw [hx, Prefixes.defined_of_requireArgument htext]
  rfl

/-- A statement that stands only at the top of a source brings what it gives. -/
theorem gives_declareTop_brings : Gives (k.declareTop stmt) w fun _ w' =>
    k.Brings (.module k.target) ([stmt].filter Statement.atTop) w w' := by
  refine gives_declareTop_of (fun _ _ => gives_editFacts_brings) (fun hkeyword => ?_) (fun hkeyword => ?_)
    fun h₁ h₂ h₃ h₄ h₅ => ?_
  · refine gives_declareTopAugment_gains.mono ?_
    rintro _ w' ⟨p, hp, h⟩
    refine brings_of_atTop (by rw [Statement.atTop, hkeyword]) ?_ h
    rw [Prefixes.plainEntry?, hkeyword]
    simp only [hp]
    rfl
  · refine gives_declareDeviation_gains.mono ?_
    rintro _ w' ⟨p, hp, h⟩
    refine brings_of_atTop (by rw [Statement.atTop, hkeyword]) ?_ h
    rw [Prefixes.plainEntry?, hkeyword]
    simp only [hp]
    rfl
  · have htop : stmt.atTop = false := by
      unfold Statement.atTop
      split <;> first | rfl | contradiction
    rw [List.filter_singleton, htop]
    exact .nil (.refl _)

/-- A source brings what the statements at its top give, each once. -/
theorem gives_declareSource_brings {root : Statement} : Gives (k.declareSource root) w fun _ w' =>
    k.Brings (.module k.target) root.children w w' := by
  unfold declareSource
  rw [gives_bind]
  have htops := gives_forM_brings (k := k) (s := .module k.target) (w := w) (p := Statement.atTop)
    (f := fun c => located (k.trace c) (k.declareTop c)) root.children fun c _ w₁ => by
      rw [gives_located]
      exact gives_declareTop_brings
  refine htops.mono fun _ w₁ h₁ => ?_
  refine (gives_declareBodyUpTo_brings root.depth _ root [] [] w₁).mono fun _ w₂ h₂ => ?_
  have h := h₁.append h₂
  rw [← List.append_assoc] at h
  exact h.perm (Statement.perm_declared root.children)

end Setting

end YangSchema
