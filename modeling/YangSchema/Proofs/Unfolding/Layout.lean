import YangSchema.Proofs.Schema.Frozen
import YangSchema.Proofs.Unfolding.Draft
import YangSchema.Proofs.Unfolding.Sources

/-!
# Layouts

A layout says from which bodies of the sources the contents of each site were declared.  It fits the
workspace if there is at the sites what the statements of the bodies say, and nothing else
(`Layout.Fits`); then a module unfolds to what its bodies yield (`Layout.Renders.unfolds_module_iff`).
-/

namespace YangSchema

open Draft

/-- Which bodies stand at which sites. -/
abbrev Layout := Site → Place → Prop

variable {R R' O O' : Layout} {d d' : Draft} {w w' : Workspace} {s : Site} {P G : Place}
  {stmt : Statement} {c i : NodeId} {t : UsesTask} {p : List QName} {top k : String}

namespace Layout

/-! ## Statements and what they declare -/

/-- The node `i` was declared by the statement; at the site stands `c`, that is `i` itself or the
shorthand case around it. -/
structure StandsFor (R : Layout) (d : Draft) (s : Site) (P : Place) (stmt : Statement)
    (c i : NodeId) : Prop where
  mem : stmt ∈ P.body.children
  child : c ∈ d.childrenOf s
  kind : stmt.nodeKind? P.prefixes = some (.ok (d.node i).kind)
  name : ∃ text, stmt.nodeName = .ok text ∧ (d.node i).name = P.prefixes.ownName text
  body : R (.node i) (P.inside stmt)
  place : c = i ∧ d.wraps s i = false ∨
    d.wraps s i = true ∧ (d.node c).kind = .caseNode true ∧ (d.node c).name = (d.node i).name ∧
      i ∈ d.childrenOf (.node c)

/-- The name stands for the grouping whose body is at `G`. -/
def Knows (R : Layout) (e : QName × GroupingId) (G : Place) : Prop :=
  G.groupingName? = some e.1 ∧ R (.grouping e.2) G

/-- The groupings and their names are those of the bodies in the list. -/
def Lists (R : Layout) (d : Draft) (gs : List GroupingId) (l : List Place) : Prop :=
  List.Forall₂ (fun g G => R.Knows ((d.grouping g).facts.name, g) G) gs l

/-- The task was left by the uses that the statement is. -/
structure Asks (R : Layout) (t : UsesTask) (P : Place) (stmt : Statement) : Prop where
  mem : stmt ∈ P.body.children
  keyword : stmt.keyword = .word .uses
  grouping : ∃ text, stmt.argument = some text ∧ P.prefixes.qname text = .ok t.grouping
  home : t.home = P.prefixes.own
  scope : List.Forall₂ R.Knows t.scope P.visible

/-- What the statement declares is there. -/
structure Carries (R : Layout) (w : Workspace) (s : Site) (P : Place) (stmt : Statement) : Prop where
  node : ∀ kind, stmt.nodeKind? P.prefixes = some kind → ∃ c i, R.StandsFor w.draft s P stmt c i
  uses : stmt.keyword = .word .uses → ∃ t ∈ w.tasks.uses, t.site = s ∧ R.Asks t P stmt

/-- All that the body declares is there. -/
def Complete (R : Layout) (w : Workspace) (s : Site) (P : Place) : Prop :=
  ∀ stmt ∈ P.body.children, R.Carries w s P stmt

/-- The layout fits the workspace; of the bodies in `O` perhaps not everything is there yet. -/
structure Fits (R O : Layout) (w : Workspace) : Prop where
  site : ∀ s P, R s P → w.draft.HasSite s
  choice : ∀ s P, R s P → w.draft.isChoice s = P.isChoice
  plain : ∀ s P, R s P → w.draft.Plain s
  unique : ∀ s P Q, (∀ i, s ≠ .module i) → R s P → R s Q → P = Q
  nodes : ∀ s, (∃ P, R s P) → ∀ c ∈ w.draft.childrenOf s,
    ∃ P stmt i, R s P ∧ R.StandsFor w.draft s P stmt c i
  uses : ∀ t ∈ w.tasks.uses, t.uses.index < w.draft.uses.size ∧
    (w.draft.usesOf t.uses).augmentations = [] ∧ ∃ P stmt, R t.site P ∧ R.Asks t P stmt
  done : ∀ s P, R s P → O s P ∨ R.Complete w s P

/-! ## Growing layouts -/

theorem Knows.mono (hR : R ≤ R') {e : QName × GroupingId} (h : R.Knows e G) : R'.Knows e G :=
  ⟨h.1, hR _ _ h.2⟩

theorem Asks.mono (hR : R ≤ R') (h : R.Asks t P stmt) : R'.Asks t P stmt :=
  { h with scope := h.scope.imp fun _ _ => Knows.mono hR }

theorem StandsFor.mono (hR : R ≤ R') (hd : d.Sound) (hk : d.Keeps d') (hi : d.HasSite (.node i))
    (h : R.StandsFor d s P stmt c i) : R'.StandsFor d' s P stmt c i := by
  have hs := hasSite_of_mem_childrenOf h.child
  have hc := hd.child_lt h.child
  refine ⟨h.mem, (hk.children s hs).subset h.child, ?_, ?_, hR _ _ h.body, ?_⟩
  · rw [hk.kind i hi]
    exact h.kind
  · rw [hk.name i hi]
    exact h.name
  · rw [hk.wraps hs hi, hk.kind c hc, hk.name c hc, hk.name i hi]
    exact h.place.imp_right fun ⟨hw, hkind, hname, hmem⟩ =>
      ⟨hw, hkind, hname, (hk.children (.node c) hc).subset hmem⟩

theorem Carries.mono (hR : R ≤ R') (hd : w.draft.Sound) (hk : w.draft.Keeps w'.draft)
    (huses : w.tasks.uses ⊆ w'.tasks.uses) (hsite : ∀ s P, R s P → w.draft.HasSite s)
    (h : R.Carries w s P stmt) : R'.Carries w' s P stmt where
  node kind hkind := by
    obtain ⟨c, i, hc⟩ := h.node kind hkind
    exact ⟨c, i, hc.mono hR hd hk (hsite _ _ hc.body)⟩
  uses hkeyword := by
    obtain ⟨t, ht, hts, hasks⟩ := h.uses hkeyword
    exact ⟨t, huses ht, hts, hasks.mono hR⟩

/-- The layout `R'` is `R` with bodies at new sites. -/
structure Extends (R R' : Layout) (d : Draft) : Prop where
  le : R ≤ R'
  fresh : ∀ s P, R' s P → R s P ∨ ¬ d.HasSite s

theorem Extends.refl (R : Layout) (d : Draft) : R.Extends R d := ⟨le_refl R, fun _ _ => .inl⟩

theorem Extends.trans {R'' : Layout} (h : R.Extends R' d) (h' : R'.Extends R'' d')
    (hk : d.Keeps d') : R.Extends R'' d where
  le := le_trans h.le h'.le
  fresh s P hP := by
    rcases h'.fresh s P hP with hP | hs
    · exact h.fresh s P hP
    · exact .inr fun hs' => hs (hk.hasSite hs')

/-- A body is added. -/
def add (R : Layout) (s : Site) (P : Place) : Layout := fun s' P' => R s' P' ∨ s' = s ∧ P' = P

theorem le_add (R : Layout) (s : Site) (P : Place) : R ≤ R.add s P := fun _ _ => .inl

theorem add_self (R : Layout) (s : Site) (P : Place) : R.add s P s P := .inr ⟨rfl, rfl⟩

theorem extends_add (hs : ¬ d.HasSite s) : R.Extends (R.add s P) d where
  le := R.le_add s P
  fresh s' P' h := by
    rcases h with h | ⟨rfl, -⟩
    · exact .inl h
    · exact .inr hs

namespace Fits

/-- Fewer bodies need be open if the others are done. -/
theorem close (h : R.Fits O w) (hO : ∀ s P, R s P → O s P → O' s P ∨ R.Complete w s P) :
    R.Fits O' w :=
  { h with done := fun s P hP => (h.done s P hP).elim (hO s P hP) .inr }

/-- What a layout and a workspace that fit may grow to.  A new body is at a new site, or at the top of
a module. -/
theorem grow (h : R.Fits O w) (hd : w.draft.Sound) (hk : w.draft.Keeps w'.draft)
    (haug : ∀ u, u.index < w.draft.uses.size →
      (w'.draft.usesOf u).augmentations = (w.draft.usesOf u).augmentations)
    (hR : R ≤ R') (hO : O ≤ O')
    (hnew : ∀ s P, R' s P → R s P ∨ w'.draft.HasSite s ∧ w'.draft.isChoice s = P.isChoice ∧
      w'.draft.Plain s ∧ O' s P ∧
      ((∀ i, s ≠ .module i) → ¬ w.draft.HasSite s ∧ ∀ Q, R' s Q → Q = P))
    (hnodes : ∀ s, (∃ P, R' s P) → ∀ c ∈ w'.draft.childrenOf s,
      (∃ P, R s P) ∧ c ∈ w.draft.childrenOf s ∨
        ∃ P stmt i, R' s P ∧ R'.StandsFor w'.draft s P stmt c i)
    (huses : ∃ more, w'.tasks.uses = w.tasks.uses ++ more ∧
      ∀ t ∈ more, t.uses.index < w'.draft.uses.size ∧
        (w'.draft.usesOf t.uses).augmentations = [] ∧ ∃ P stmt, R' t.site P ∧ R'.Asks t P stmt) :
    R'.Fits O' w' where
  site s P hP := (hnew s P hP).elim (fun hP => hk.hasSite (h.site s P hP)) fun hP => hP.1
  choice s P hP := (hnew s P hP).elim
    (fun hP => (hk.isChoice (h.site s P hP)).trans (h.choice s P hP)) fun hP => hP.2.1
  plain s P hP := by
    rcases hnew s P hP with hP | hP
    · rintro i rfl
      rw [hk.kind i (h.site _ P hP)]
      exact h.plain _ P hP i rfl
    · exact hP.2.2.1
  unique s P Q hs hP hQ := by
    rcases hnew s P hP with hP' | hP'
    · rcases hnew s Q hQ with hQ' | hQ'
      · exact h.unique s P Q hs hP' hQ'
      · exact (hQ'.2.2.2.2 hs).2 P hP
    · exact ((hP'.2.2.2.2 hs).2 Q hQ).symm
  nodes s hs c hc := by
    rcases hnodes s hs c hc with ⟨hs, hc⟩ | hc
    · obtain ⟨P, stmt, i, hP, hstands⟩ := h.nodes s hs c hc
      exact ⟨P, stmt, i, hR _ _ hP, hstands.mono hR hd hk (h.site _ _ hstands.body)⟩
    · exact hc
  uses t ht := by
    obtain ⟨more, hmore, hall⟩ := huses
    rw [hmore] at ht
    rcases List.mem_append.1 ht with ht | ht
    · obtain ⟨hlt, hnone, P, stmt, hP, hasks⟩ := h.uses t ht
      exact ⟨Nat.lt_of_lt_of_le hlt hk.uses_le, (haug t.uses hlt).trans hnone, P, stmt, hR _ _ hP,
        hasks.mono hR⟩
    · exact hall t ht
  done s P hP := by
    obtain ⟨more, hmore, -⟩ := huses
    rcases hnew s P hP with hP | hP
    · refine (h.done s P hP).imp (hO s P) fun hdone stmt hstmt => ?_
      refine (hdone stmt hstmt).mono hR hd hk ?_ h.site
      rw [hmore]
      exact List.subset_append_left ..
    · exact .inl hP.2.2.2.1

/-- Groupings keep their names. -/
theorem lists_mono (h : R.Fits O w) (hR : R ≤ R') (hk : w.draft.Keeps d') {gs : List GroupingId}
    {l : List Place} (hl : R.Lists w.draft gs l) : R'.Lists d' gs l :=
  hl.imp fun g G hG => by
    rw [hk.grouping g (h.site _ G hG.2)]
    exact hG.mono hR

theorem wraps_iff (h : R.Fits O w) (hP : R s P) (i : NodeId) : w.draft.wraps s i = true ↔
    P.isChoice = true ∧ (w.draft.node i).kind.keyword ≠ "case" := by
  rw [wraps_eq_true, h.choice s P hP]

end Fits

/-! ## Modules -/

theorem optionRel_or {α β : Type} {T : α → β → Prop} {a a' : Option α} {b b' : Option β}
    (h : Option.Rel T a b) (h' : Option.Rel T a' b') : Option.Rel T (a.or a') (b.or b') := by
  cases h with
  | none => exact h'
  | some h => exact .some h

/-- The module was declared from the text. -/
structure Describes (R : Layout) (d : Draft) (i : ModuleId) (T : ModuleText) : Prop where
  lt : i.index < d.modules.size
  identity : (d.module i).facts.identity = T.identity
  parts : ∀ P, R (.module i) P ↔ P ∈ T.parts
  parts_ne : T.parts ≠ []
  groupings : R.Lists d (d.module i).groupings T.groupings

/-- The layout and the workspace that were declared from the texts. -/
structure Renders (R : Layout) (texts : List ModuleText) (modules : List ModuleId)
    (w : Workspace) : Prop extends w.Declared modules where
  fits : R.Fits (fun _ _ => False) w
  texts : List.Forall₂ (R.Describes w.draft) modules texts

/-- What a site unfolds to is yielded by a body there.  A shorthand case has no body: it shows the node
that it was put around, and what is yielded below that. -/
structure Accounts (R : Layout) (texts : List ModuleText) (w : Workspace) (s : Site) (p : List QName)
    (top k : String) : Prop where
  body : (∃ P, R s P) → ∃ P, R s P ∧ Yields texts true P p top k
  case : ∀ c i Q, s = .node c → (w.draft.node c).kind = .caseNode true →
    i ∈ w.draft.childrenOf s → R (.node i) Q →
      top = (w.draft.node i).kind.keyword ∧
        (p = [(w.draft.node i).name] ∧ k = (w.draft.node i).kind.keyword ∨
          ∃ p' top', p = (w.draft.node i).name :: p' ∧ Yields texts true Q p' top' k)

namespace Renders

variable {texts : List ModuleText} {modules : List ModuleId} {q : QName}
  (h : R.Renders texts modules w)
include h

/-- Modules and texts are found by the same identities. -/
theorem moduleOf?_rel (m : ModuleIdentity) :
    Option.Rel (R.Describes w.draft) (w.draft.moduleOf? m) (texts.find? (·.identity == m)) := by
  have hfind := find?_forall₂ (p := fun i => (w.draft.module i).facts.identity == m)
    (q := fun T => T.identity == m) h.texts fun i _ T hT => by rw [hT.identity]
  cases hm : w.draft.moduleOf? m with
  | some i =>
    obtain ⟨hi, hid⟩ := of_moduleOf? hm
    cases hj : modules.find? fun i => (w.draft.module i).facts.identity == m with
    | none =>
      have := List.find?_eq_none.1 hj i ((h.mem_modules i).2 hi)
      simp [hid] at this
    | some j =>
      have hj' : (w.draft.module j).facts.identity = m := by simpa using List.find?_some hj
      have hjlt := (h.mem_modules j).1 (List.mem_of_find?_eq_some hj)
      obtain rfl := h.identities i j hi hjlt (hid.trans hj'.symm)
      rw [hj] at hfind
      exact hfind
  | none =>
    have hj : modules.find? (fun i => (w.draft.module i).facts.identity == m) = none := by
      refine List.find?_eq_none.2 fun i hi hid => ?_
      exact identity_ne_of_moduleOf? hm ((h.mem_modules i).1 hi) (by simpa using hid)
    rw [hj] at hfind
    exact hfind

/-- A uses finds the grouping that it means. -/
theorem resolve_rel (ht : R.Asks t P stmt) :
    Option.Rel (fun g G => R (.grouping g) G) (t.resolve w.draft)
      (findGrouping texts P t.grouping) := by
  refine optionRel_or ?_ ?_
  · have hscope := find?_forall₂ (p := fun e => e.1 == t.grouping)
      (q := fun G => G.groupingName? == some t.grouping) ht.scope fun e _ G hG => by
        rw [hG.1]
        rfl
    unfold Scope.find?
    generalize List.find? (fun e => e.1 == t.grouping) t.scope = a at hscope ⊢
    generalize P.visible.find? (·.groupingName? == some t.grouping) = b at hscope ⊢
    cases hscope with
    | none => exact .none
    | some hG => exact .some hG.2
  · have hrel := h.moduleOf?_rel t.grouping.owner
    unfold findModuleGrouping
    generalize w.draft.moduleOf? t.grouping.owner = a at hrel ⊢
    generalize texts.find? (·.identity == t.grouping.owner) = b at hrel ⊢
    cases hrel with
    | none => exact .none
    | @some i T hT =>
      have hfind := find?_forall₂ (p := fun g => (w.draft.grouping g).facts.name == t.grouping)
        (q := fun G => G.groupingName? == some t.grouping) hT.groupings fun g _ G hG => by
          rw [hG.1]
          rfl
      exact optionRel_imp (fun _ _ hG => hG.2) hfind

theorem exists_of_resolve (ht : R.Asks t P stmt) {g : GroupingId} (hg : t.resolve w.draft = some g) :
    ∃ G, findGrouping texts P t.grouping = some G ∧ R (.grouping g) G := by
  have hrel := h.resolve_rel ht
  rw [hg] at hrel
  generalize findGrouping texts P t.grouping = b at hrel ⊢
  cases hrel with
  | some hG => exact ⟨_, rfl, hG⟩

theorem exists_of_findGrouping (ht : R.Asks t P stmt) (hG : findGrouping texts P t.grouping = some G) :
    ∃ g, t.resolve w.draft = some g ∧ R (.grouping g) G := by
  have hrel := h.resolve_rel ht
  rw [hG] at hrel
  generalize t.resolve w.draft = a at hrel ⊢
  cases hrel with
  | some hG => exact ⟨_, rfl, hG⟩

/-! ## What sites unfold to -/

/-- A shorthand case holds one node. -/
theorem eq_of_mem_shorthand {x : NodeId} (hc : (w.draft.node c).kind = .caseNode true)
    (hi : i ∈ w.draft.childrenOf (.node c)) (hx : x ∈ w.draft.childrenOf (.node c)) : x = i := by
  obtain ⟨y, hy, -⟩ := h.shorthands c hc
  rw [hy] at hi hx
  rw [List.mem_singleton.1 hi, List.mem_singleton.1 hx]

theorem accounts_here {x : NodeId} (hx : x ∈ w.draft.childrenOf s) :
    R.Accounts texts w s [(w.draft.node x).name] (w.draft.node x).kind.keyword
      (w.draft.node x).kind.keyword := by
  refine ⟨fun hs => ?_, fun c i Q hs hc hi _ => ?_⟩
  · obtain ⟨P, stmt, i, hP, hstands⟩ := h.fits.nodes s hs x hx
    obtain ⟨text, htext, hname⟩ := hstands.name
    have hraw : Yields texts false P .. := .node hstands.mem hstands.kind htext
    rw [← hname] at hraw
    refine ⟨P, hP, ?_⟩
    rcases hstands.place with ⟨rfl, hw⟩ | ⟨hw, hkind, hname, -⟩
    · exact .direct hraw fun hcase => by rw [(h.fits.wraps_iff hP x).2 hcase] at hw; cases hw
    · rw [hkind, hname]
      exact .wrapper hraw ((h.fits.wraps_iff hP i).1 hw)
  · subst hs
    obtain rfl := h.eq_of_mem_shorthand hc hi hx
    exact ⟨rfl, .inl ⟨rfl, rfl⟩⟩

theorem accounts_there {x : NodeId} (hx : x ∈ w.draft.childrenOf s)
    (ih : R.Accounts texts w (.node x) p top k) :
    R.Accounts texts w s ((w.draft.node x).name :: p) (w.draft.node x).kind.keyword k := by
  have hnode : ∀ {i : NodeId} (m : ModuleId), Site.node i ≠ .module m := fun _ h => (by cases h)
  refine ⟨fun hs => ?_, fun c i Q hs hc hi hQ => ?_⟩
  · obtain ⟨P, stmt, i, hP, hstands⟩ := h.fits.nodes s hs x hx
    obtain ⟨text, htext, hname⟩ := hstands.name
    have hraw : ∀ {p top k}, Yields texts true (P.inside stmt) p top k →
        Yields texts false P ((w.draft.node i).name :: p) (w.draft.node i).kind.keyword k := by
      intro p top k hyields
      rw [hname]
      exact .inner hstands.mem hstands.kind htext hyields
    refine ⟨P, hP, ?_⟩
    rcases hstands.place with ⟨rfl, hw⟩ | ⟨hw, hkind, hname', hmem⟩
    · obtain ⟨P', hP', hyields⟩ := ih.body ⟨_, hstands.body⟩
      obtain rfl := h.fits.unique _ _ P' hnode hstands.body hP'
      refine .direct (hraw hyields) fun hcase => ?_
      rw [(h.fits.wraps_iff hP x).2 hcase] at hw
      cases hw
    · -- the node is in a shorthand case, and so is what the statement yields
      have hw := (h.fits.wraps_iff hP i).1 hw
      rw [hkind, hname']
      rcases ih.case x i _ rfl hkind hmem hstands.body with
        ⟨-, ⟨rfl, rfl⟩ | ⟨p', top', rfl, hyields⟩⟩
      · have hraw : Yields texts false P .. := .node hstands.mem hstands.kind htext
        rw [← hname] at hraw
        exact .wrapped hraw hw
      · exact .wrapped (hraw hyields) hw
  · subst hs
    obtain rfl := h.eq_of_mem_shorthand hc hi hx
    obtain ⟨P, hP, hyields⟩ := ih.body ⟨Q, hQ⟩
    obtain rfl := h.fits.unique _ P Q hnode hP hQ
    exact ⟨rfl, .inr ⟨p, top, rfl, hyields⟩⟩

/-- What the body of a grouping yields is yielded where it is used, up to the cases there. -/
theorem accounts_uses {g : GroupingId} {p' : List QName} {top' k' : String} (ht : t ∈ w.tasks.uses)
    (hg : t.resolve w.draft = some g) (ih : R.Accounts texts w (.grouping g) p top k)
    (hcase : ∀ P, w.draft.isChoice t.site = P.isChoice →
      Yields texts false P (p.map t.style.name) top k → Yields texts true P p' top' k') :
    R.Accounts texts w t.site p' top' k' := by
  obtain ⟨-, -, P, stmt, hP, hasks⟩ := h.fits.uses t ht
  obtain ⟨G, hG, hgG⟩ := h.exists_of_resolve hasks hg
  obtain ⟨G', hG', hyields⟩ := ih.body ⟨G, hgG⟩
  obtain rfl := h.fits.unique _ G G' (fun m h => (by cases h)) hgG hG'
  obtain ⟨text, htext, hq⟩ := hasks.grouping
  have hraw := Yields.uses hasks.mem hasks.keyword htext hq hG hyields
  rw [← hasks.home] at hraw
  exact ⟨fun _ => ⟨P, hP, hcase P (h.fits.choice _ P hP) hraw⟩,
    fun c _ _ hc hk => absurd hk (h.fits.plain _ P hP c hc)⟩

theorem accounts_of_unfolds (hp : w.draft.Unfolds w.tasks.uses s p top k) :
    R.Accounts texts w s p top k := by
  induction hp with
  | here hx => exact h.accounts_here hx
  | there hx _ ih => exact h.accounts_there hx ih
  | direct ht hg _ hw ih =>
    refine h.accounts_uses ht hg ih fun P hchoice hraw => ?_
    rw [hchoice] at hw
    exact .direct hraw hw
  | wrapper ht hg _ hw ih =>
    refine h.accounts_uses ht hg ih fun P hchoice hraw => ?_
    rw [hchoice] at hw
    exact .wrapper hraw hw
  | wrapped ht hg _ hw ih =>
    refine h.accounts_uses ht hg ih fun P hchoice hraw => ?_
    rw [hchoice] at hw
    exact .wrapped hraw hw

/-- The site unfolds to what the path comes to when cases are put in. -/
structure UnfoldsTo (w : Workspace) (s : Site) (p : List QName) (top k : String) : Prop where
  direct : ¬ (w.draft.isChoice s = true ∧ top ≠ "case") → w.draft.Unfolds w.tasks.uses s p top k
  wrapper : w.draft.isChoice s = true ∧ top ≠ "case" → ∀ q, p = [q] →
    w.draft.Unfolds w.tasks.uses s [q] "case" "case"
  wrapped : w.draft.isChoice s = true ∧ top ≠ "case" → ∀ q p', p = q :: p' →
    w.draft.Unfolds w.tasks.uses s (q :: p) "case" k

/-- Likewise, or with the cases put in already. -/
def UnfoldsAs (w : Workspace) (s : Site) : Bool → List QName → String → String → Prop
  | true, p, top, k => w.draft.Unfolds w.tasks.uses s p top k
  | false, p, top, k => UnfoldsTo w s p top k

omit h in
/-- A declared node is seen, and what it unfolds to. -/
theorem unfoldsTo_of_standsFor (hstands : R.StandsFor w.draft s P stmt c i) :
    UnfoldsTo w s [(w.draft.node i).name] (w.draft.node i).kind.keyword
        (w.draft.node i).kind.keyword ∧
      ∀ p top k, w.draft.Unfolds w.tasks.uses (.node i) p top k →
        UnfoldsTo w s ((w.draft.node i).name :: p) (w.draft.node i).kind.keyword k := by
  rcases hstands.place with ⟨rfl, hw⟩ | ⟨hw, hkind, hname, hmem⟩
  · have hno : ¬ (w.draft.isChoice s = true ∧ (w.draft.node c).kind.keyword ≠ "case") := by
      rw [← wraps_eq_true, hw]
      exact Bool.false_ne_true
    exact ⟨⟨fun _ => .here hstands.child, fun h => absurd h hno, fun h => absurd h hno⟩,
      fun _ _ _ hp => ⟨fun _ => .there hstands.child hp, fun h => absurd h hno,
        fun h => absurd h hno⟩⟩
  · have hyes := wraps_eq_true.1 hw
    have hkeyword : (w.draft.node c).kind.keyword = "case" := by rw [hkind]; rfl
    -- the case, and what is in it
    have hhere : w.draft.Unfolds w.tasks.uses s .. := .here hstands.child
    rw [hkeyword, hname] at hhere
    have hthere : ∀ {p top k}, w.draft.Unfolds w.tasks.uses (.node c) p top k →
        w.draft.Unfolds w.tasks.uses s ((w.draft.node i).name :: p) "case" k := by
      intro p top k hp
      rw [← hkeyword, ← hname]
      exact .there hstands.child hp
    refine ⟨⟨fun h => absurd hyes h, fun _ q hq => ?_, fun _ q p' hq => ?_⟩, fun p top k hp =>
      ⟨fun h => absurd hyes h, fun _ q hq => ?_, fun _ q p' hq => ?_⟩⟩
    · cases hq
      exact hhere
    · cases hq
      exact hthere (.here hmem)
    · cases hq
      exact hhere
    · cases hq
      exact hthere (.there hmem hp)

/-- A site unfolds to all that its bodies yield. -/
theorem unfolds_of_yields {cased : Bool} (hy : Yields texts cased P p top k) :
    ∀ s, R s P → UnfoldsAs w s cased p top k := by
  have hfits := h.fits
  have hdone : ∀ {s P c}, R s P → c ∈ P.body.children → R.Carries w s P c := fun hP hc =>
    (hfits.done _ _ hP).elim False.elim fun hdone => hdone _ hc
  -- the node of a statement
  have hfind : ∀ {s P c kind name}, R s P → c ∈ P.body.children →
      c.nodeKind? P.prefixes = some (.ok kind) → c.nodeName = .ok name →
      ∃ x i, R.StandsFor w.draft s P c x i ∧ (w.draft.node i).kind = kind ∧
        (w.draft.node i).name = P.prefixes.ownName name := by
    intro s P c kind name hP hc hkind hname
    obtain ⟨x, i, hstands⟩ := (hdone hP hc).node _ hkind
    obtain ⟨text, htext, hnamed⟩ := hstands.name
    refine ⟨x, i, hstands, ?_, ?_⟩
    · exact Except.ok.inj (Option.some.inj (hstands.kind.symm.trans hkind))
    · rw [hnamed, Except.ok.inj (htext.symm.trans hname)]
  induction hy with
  | node hc hkind hname =>
    intro s hP
    obtain ⟨x, i, hstands, rfl, hnamed⟩ := hfind hP hc hkind hname
    show UnfoldsTo ..
    rw [← hnamed]
    exact (unfoldsTo_of_standsFor hstands).1
  | inner hc hkind hname _ ih =>
    intro s hP
    obtain ⟨x, i, hstands, rfl, hnamed⟩ := hfind hP hc hkind hname
    show UnfoldsTo ..
    rw [← hnamed]
    exact (unfoldsTo_of_standsFor hstands).2 _ _ _ (ih _ hstands.body)
  | @uses P G c text q p top k hc hkeyword htext hq hG _ ih =>
    intro s hP
    obtain ⟨t, ht, rfl, hasks⟩ := (hdone hP hc).uses hkeyword
    obtain ⟨text', htext', hq'⟩ := hasks.grouping
    obtain rfl := Option.some.inj (htext.symm.trans htext')
    obtain rfl := Except.ok.inj (hq.symm.trans hq')
    obtain ⟨g, hg, hgG⟩ := h.exists_of_findGrouping hasks hG
    have hbody : w.draft.Unfolds w.tasks.uses (.grouping g) p top k := ih _ hgG
    have hnames : p.map (QName.bindTo P.prefixes.own) = p.map t.style.name := by
      rw [← hasks.home]
      rfl
    show UnfoldsTo ..
    rw [hnames]
    refine ⟨fun hw => .direct ht hg hbody hw, fun hw q hp => ?_, fun hw q p' hp => ?_⟩
    · obtain ⟨q₀, rfl, rfl⟩ := List.map_eq_singleton_iff.1 hp
      exact .wrapper ht hg hbody hw
    · obtain ⟨q₀, p₀, rfl, rfl, rfl⟩ := List.map_eq_cons_iff.1 hp
      exact .wrapped ht hg hbody hw
  | direct _ hw ih =>
    intro s hP
    exact (ih s hP).direct (by rwa [hfits.choice s _ hP])
  | wrapper _ hw ih =>
    intro s hP
    exact (ih s hP).wrapper (by rwa [hfits.choice s _ hP]) _ rfl
  | wrapped _ hw ih =>
    intro s hP
    exact (ih s hP).wrapped (by rwa [hfits.choice s _ hP]) _ _ rfl

/-- A module unfolds to what the bodies of its text yield. -/
theorem unfolds_module_iff {i : ModuleId} {T : ModuleText} (hT : R.Describes w.draft i T) :
    w.draft.Unfolds w.tasks.uses (.module i) p top k ↔
      ∃ P ∈ T.parts, Yields texts true P p top k := by
  constructor
  · intro hp
    obtain ⟨Q, hQ⟩ := List.exists_mem_of_ne_nil _ hT.parts_ne
    obtain ⟨P, hP, hyields⟩ := (h.accounts_of_unfolds hp).body ⟨Q, (hT.parts Q).2 hQ⟩
    exact ⟨P, (hT.parts P).1 hP, hyields⟩
  · rintro ⟨P, hP, hyields⟩
    exact h.unfolds_of_yields hyields _ ((hT.parts P).2 hP)

end Renders

end Layout

end YangSchema
