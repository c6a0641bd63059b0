import YangSchema.Proofs.Draft.Furnishing
import YangSchema.Proofs.Inference.Addressing
import YangSchema.Proofs.Inference.Provenance
import YangSchema.Proofs.Inference.Records

/-!
# Siblings with different names

In a draft with distinct siblings no two children of one site have the same name (`Draft.Distinct`).
Copying a body may bind the names to another module, where two names that differ in their modules only
would become one; but the local names in a body differ, too (`Draft.Discerning`).  So copies of siblings
are distinct, and a site that has no child of the name of a copy stays distinct when the copy is put
there (`Copied.discerning`).  Every task checks for this before it copies anything, and in a body the
names that are checked have one owner, so the check is one of local names.
-/

namespace YangSchema

open Draft Edit Relation

theorem QName.eq_of_owner {p q : QName} (howner : p.owner = q.owner)
    (hlocal : p.localName = q.localName) : p = q := by
  cases p
  cases q
  cases howner
  cases hlocal
  rfl

namespace Draft

variable {style : CopyStyle} {d₀ d d₁ d₂ : Draft} {s t : Site} {c r x n : NodeId} {b : Owner}
  {a : AugmentId} {P : Item → Prop}

/-- The names of the children of a site. -/
def siblings (d : Draft) (s : Site) : List QName := (d.childrenOf s).map fun c => (d.node c).name

/-- No two children of one site have the same name. -/
def Distinct (d : Draft) : Prop := ∀ s, (d.siblings s).Nodup

theorem siblings_of_not_hasSite (h : ¬ d.HasSite s) : d.siblings s = [] := by
  rw [siblings, childrenOf_of_not_hasSite h]
  rfl

/-- There are finitely many sites to look at. -/
theorem distinct_iff : d.Distinct ↔
    (∀ i < d.modules.size, (d.siblings (.module ⟨i⟩)).Nodup) ∧
    (∀ i < d.nodes.size, (d.siblings (.node ⟨i⟩)).Nodup) ∧
    (∀ i < d.groupings.size, (d.siblings (.grouping ⟨i⟩)).Nodup) ∧
    ∀ i < d.augments.size, (d.siblings (.augment ⟨i⟩)).Nodup := by
  refine ⟨fun h => ⟨fun _ _ => h _, fun _ _ => h _, fun _ _ => h _, fun _ _ => h _⟩, ?_⟩
  rintro ⟨hmodules, hnodes, hgroupings, haugments⟩ s
  by_cases hs : d.HasSite s
  · cases s with
    | module m => exact hmodules m.index hs
    | node i => exact hnodes i.index hs
    | grouping g => exact hgroupings g.index hs
    | augment a => exact haugments a.index hs
  · rw [siblings_of_not_hasSite hs]
    exact List.nodup_nil

instance : Decidable d.Distinct := decidable_of_iff _ distinct_iff.symm

theorem not_mem_siblings {q : QName} (h : d.findChild s q = none) : q ∉ d.siblings s := by
  intro hq
  obtain ⟨c, hc, rfl⟩ := List.mem_map.1 hq
  have hne := List.find?_eq_none.1 h c hc
  simp at hne

theorem siblings_congr (hchildren : d₁.childrenOf s = d.childrenOf s)
    (hname : ∀ c ∈ d.childrenOf s, (d₁.node c).name = (d.node c).name) :
    d₁.siblings s = d.siblings s := by
  rw [siblings, hchildren]
  exact List.map_congr_left hname

/-- Siblings have different names, and in a body different local names. -/
structure Discerning (d : Draft) : Prop where
  distinct : d.Distinct
  bodies : ∀ s, d.InBody s → ((d.siblings s).map QName.localName).Nodup

/-- In a body with names of one module, different names have different local names. -/
theorem Distinct.discerning (h : d.Distinct) (hd : d.Sound)
    (howner : ∀ b : Owner, ∀ i j, d.Under (.node i) b.site → d.Under (.node j) b.site →
      (d.node i).name.owner = (d.node j).name.owner) : d.Discerning where
  distinct := h
  bodies s hs := by
    obtain ⟨b, hb⟩ := hs
    refine List.Nodup.map_on (fun p hp q hq hlocal => ?_) (h s)
    obtain ⟨i, hi, rfl⟩ := List.mem_map.1 hp
    obtain ⟨j, hj, rfl⟩ := List.mem_map.1 hq
    exact QName.eq_of_owner (howner b i j (hd.under_of_mem hb hi) (hd.under_of_mem hb hj)) hlocal

theorem Discerning.of_same (h : d.Discerning) (hchildren : ∀ t, d₁.childrenOf t = d.childrenOf t)
    (hname : ∀ i, (d₁.node i).name = (d.node i).name)
    (hparent : ∀ i, (d₁.node i).parent = (d.node i).parent) : d₁.Discerning := by
  have hsiblings : ∀ t, d₁.siblings t = d.siblings t :=
    fun t => siblings_congr (hchildren t) fun i _ => hname i
  refine ⟨fun t => ?_, fun t ht => ?_⟩
  · rw [hsiblings]
    exact h.distinct t
  · rw [hsiblings]
    exact h.bodies t (ht.of_parent fun i _ => (hparent i).symm)

theorem Discerning.alike (h : d.Discerning) (ha : d.Alike d₁) : d₁.Discerning :=
  h.of_same ha.childrenOf ha.name ha.parent

/-! ## Copies -/

/-- Copies of the nodes of a list have the local names of these. -/
theorem map_localName_of_copies {l l' : List NodeId}
    (hmap : l'.map (fun c => (d₁.node c).origin) = l.map some)
    (hcopy : ∀ c ∈ l', ∃ o, CopyOf style d d₁ o c) :
    l'.map (fun c => (d₁.node c).name.localName) = l.map fun c => (d.node c).name.localName := by
  induction l' generalizing l with
  | nil => rw [List.map_eq_nil_iff.1 hmap.symm, List.map_nil, List.map_nil]
  | cons c l' ih =>
    cases l with
    | nil => cases hmap
    | cons x l =>
      obtain ⟨hx, hrest⟩ := List.cons.inj hmap
      obtain ⟨o, hc⟩ := hcopy c List.mem_cons_self
      obtain rfl : o = x := Option.some.inj (hc.origin.symm.trans hx)
      rw [List.map_cons, List.map_cons, hc.name, CopyStyle.localName_name,
        ih hrest fun c hc => hcopy c (List.mem_cons_of_mem _ hc)]

section

variable (hsound : d.Sound) (hd : d.Discerning) (hP : ∀ s, P (.site s) → d.InBody s)
include hd hP

/-- What is new has the siblings of something in a body, up to their owners. -/
theorem Grows.nodup_of_new (hg : Grows style (fun _ => False) P d d d₁)
    (hf : Furnished (fun _ => False) P d d d₁) (hs : ¬ d.HasSite s) :
    ((d₁.siblings s).map QName.localName).Nodup := by
  by_cases hs₁ : d₁.HasSite s
  swap
  · rw [siblings_of_not_hasSite hs₁]
    exact List.nodup_nil
  have hcopied : ∀ i, ¬ d.HasSite (.node i) → d₁.HasSite (.node i) →
      ∃ o, P (.site (.node o)) ∧ CopyOf style d d₁ o i :=
    fun i hi hi₁ => (hg.copied i (Nat.not_lt.1 hi) hi₁).resolve_left id
  have hcopy : ∀ c ∈ d₁.childrenOf s, ∃ o, CopyOf style d d₁ o c := by
    intro c hc
    have hnew := hg.closed (.site s) _ hs (contains_site.2 (.inl ⟨c, hc, rfl⟩))
    obtain ⟨o, -, hcopy⟩ := hcopied c hnew (hg.sound.child_lt hc)
    exact ⟨o, hcopy⟩
  obtain ⟨t, ht, hmap⟩ : ∃ t, d.InBody t ∧
      (d₁.childrenOf s).map (fun c => (d₁.node c).origin) = (d.childrenOf t).map some := by
    cases s with
    | module m => exact absurd (Nat.lt_of_lt_of_eq hs₁ hg.extends_.modules_size) hs
    | grouping g => exact absurd (Nat.lt_of_lt_of_eq hs₁ hg.extends_.groupings_size) hs
    | node i =>
      obtain ⟨o, ho, hcopy⟩ := hcopied i hs hs₁
      exact ⟨.node o, hP _ ho, hcopy.children⟩
    | augment a =>
      obtain ⟨o, ho, hmap⟩ := (hf.bodies a (Nat.not_lt.1 hs) hs₁).resolve_left id
      exact ⟨.augment o, hP _ ho, hmap⟩
  have hnodup := hd.bodies t ht
  rw [siblings, List.map_map] at hnodup ⊢
  exact ((map_localName_of_copies hmap hcopy).symm ▸ hnodup :)

include hsound

theorem Grows.discerning (hg : Grows style (fun _ => False) P d d d₁)
    (hf : Furnished (fun _ => False) P d d d₁) : d₁.Discerning := by
  have he := hg.extends_
  have hold : ∀ t, d.HasSite t → d₁.siblings t = d.siblings t := fun t ht =>
    siblings_congr (he.childrenOf ht) fun c hc => by rw [he.node c (hsound.child_lt hc)]
  refine ⟨fun t => ?_, fun t ht => ?_⟩
  all_goals by_cases hs : d.HasSite t
  · rw [hold t hs]
    exact hd.distinct t
  · exact .of_map _ (hg.nodup_of_new hd hP hf hs)
  · rw [hold t hs]
    obtain ⟨b, hb⟩ := ht
    exact hd.bodies t ⟨b, (hsound.under_iff_of_parent (fun i hi => by rw [he.node i hi]) hs).1 hb⟩
  · exact hg.nodup_of_new hd hP hf hs

/-- A copy comes to a site that has no child of its name; in a body, no child of its local name. -/
theorem Copied.discerning (hs : d.HasSite s) (h : Copied style P s x c r d d₁ d₂)
    (hf : Furnished (fun _ => False) P d d d₁) (hfresh : style.name (d.node x).name ∉ d.siblings s)
    (hlocal : d.InBody s → (d.node x).name.localName ∉ (d.siblings s).map QName.localName) :
    d₂.Discerning := by
  have hk := (h.changes hsound hs).keeps
  have hsite : d₂.siblings s = d.siblings s ++ [style.name (d.node x).name] := by
    rw [siblings, h.children_self hs, List.map_append, List.map_singleton, (h.planted hs).name]
    exact congrArg (· ++ _) (List.map_congr_left fun c hc => hk.name c (hsound.child_lt hc))
  have hold : ∀ t, d.HasSite t → t ≠ s → d₂.siblings t = d.siblings t := fun t ht hts =>
    siblings_congr (h.childrenOf ht hts) fun c hc => hk.name c (hsound.child_lt hc)
  have hnew : ∀ t, ¬ d.HasSite t → ((d₂.siblings t).map QName.localName).Nodup := by
    intro t ht
    have hts : t ≠ s := by
      rintro rfl
      exact ht hs
    by_cases htw : t = .node ⟨d₁.nodes.size⟩
    · -- the shorthand case has one child
      subst htw
      by_cases hlt : d₁.nodes.size < d₂.nodes.size
      · obtain ⟨rfl, hw⟩ := h.attached.eq_of_new (i := ⟨d₁.nodes.size⟩) (Nat.le_refl _) hlt
        have hone : d₂.childrenOf (.node ⟨d₁.nodes.size⟩) = [c] :=
          congrArg NodeDraft.children (h.attached.wrapper hw).2.2
        rw [siblings, hone]
        exact List.nodup_singleton _
      · rw [siblings_of_not_hasSite (s := .node ⟨d₁.nodes.size⟩) hlt]
        exact List.nodup_nil
    · have hsame : d₂.siblings t = d₁.siblings t :=
        siblings_congr (h.attached.children_of_ne t htw hts) fun i hi => by
          rw [h.attached.node i (h.grows.sound.child_lt hi)]
          rfl
      rw [hsame]
      exact h.grows.nodup_of_new hd hP hf ht
  refine ⟨fun t => ?_, fun t ht => ?_⟩
  all_goals by_cases hts : t = s
  · subst hts
    rw [hsite, ← List.concat_eq_append]
    exact (hd.distinct t).concat hfresh
  · by_cases ht : d.HasSite t
    · rw [hold t ht hts]
      exact hd.distinct t
    · exact .of_map _ (hnew t ht)
  · subst hts
    obtain ⟨b, hb⟩ := ht
    have hbody : d.InBody t := ⟨b, (hk.under_iff hsound hs).1 hb⟩
    rw [hsite, List.map_append, List.map_singleton, CopyStyle.localName_name,
      ← List.concat_eq_append]
    exact (hd.bodies t hbody).concat (hlocal hbody)
  · by_cases hold' : d.HasSite t
    · obtain ⟨b, hb⟩ := ht
      rw [hold t hold' hts]
      exact hd.bodies t ⟨b, (hk.under_iff hsound hold').1 hb⟩
    · exact hnew t hold'

end

/-! ## Tasks -/

/-- What is in a uses is in a body. -/
theorem inBody_of_inside_uses (hd : d.Sound) {u : UsesId} (h : d.Inside (.uses u) (.site s)) :
    d.InBody s := by
  rcases ReflTransGen.cases_head h with heq | ⟨x, hx, hs⟩
  · cases heq
  · obtain ⟨a, -, rfl⟩ := contains_uses.1 hx
    exact inBody_of_inside (b := .augment a) hd hs s rfl

/-- Copying a node of a body to a site. -/
theorem ends_copyTo_discerning (hsound : d.Sound) (hd : d.Discerning) (hs : d.HasSite s)
    (hx : x ∈ d.childrenOf b.site) (hfresh : style.name (d.node x).name ∉ d.siblings s)
    (hlocal : d.InBody s → (d.node x).name.localName ∉ (d.siblings s).map QName.localName) :
    Ends (do discard <| attach s (← copyNode style x)) d
      (fun _ d' => (∃ c r d₁, Copied style (d.Inside (.site (.node x))) s x c r d d₁ d') ∧
        d'.Discerning)
      fun _ _ => True := by
  have hinside : ∀ t, d.Inside (.site (.node x)) (.site t) → d.InBody t := fun t ht =>
    inBody_of_inside (b := b) hsound (.head (contains_site.2 (.inl ⟨x, hx, rfl⟩)) ht) t rfl
  rw [ends_bind]
  refine (ends_copyNode_furnished hsound (hsound.child_lt hx)).mono ?_ fun _ _ hE => hE.elim
  rintro c d₁ ⟨⟨hg, rfl, hlt, hnone, horigin⟩, hf⟩
  rw [ends_discard]
  refine (ends_attach hg.sound (hg.extends_.hasSite hs) (hg.loose (Nat.le_refl _) hlt hnone)
    (fun hN => hN.2 hs) fun _ hN => hN.1).mono ?_ fun _ _ _ => trivial
  rintro r d₂ ⟨-, hatt⟩
  have hcopied : Copied style (d.Inside (.site (.node x))) s x ⟨d.nodes.size⟩ r d d₁ d₂ :=
    ⟨hg, Nat.le_refl _, hlt, horigin, hatt⟩
  exact ⟨⟨_, r, d₁, hcopied⟩, hcopied.discerning hsound hd hinside hs hf hfresh hlocal⟩

theorem map_name_of_planted {body news : List NodeId}
    (h : List.Forall₂ (Planted style s d d₁) body news) :
    news.map (fun c => (d₁.node c).name) = body.map fun x => style.name (d.node x).name := by
  induction h with
  | nil => rfl
  | cons hn _ ih => rw [List.map_cons, List.map_cons, ih, hn.name]

/-- The names at a site go on with those of the body. -/
theorem Grafted.siblings_self {body : List NodeId} (hd : d.Sound) (h : Grafted style s body d d₁) :
    d₁.siblings s = d.siblings s ++ body.map fun x => style.name (d.node x).name := by
  obtain ⟨news, hnews, hall⟩ := h.children_self
  rw [siblings, hnews, List.map_append, map_name_of_planted hall]
  exact congrArg (· ++ _) (List.map_congr_left fun c hc => h.changes.keeps.name c (hd.child_lt hc))

/-- Copying the nodes of a body to a site that has no child of their names; in a body, its children
have the owner of the new names. -/
theorem ends_graft_discerning (hsound : d.Sound) (hd : d.Discerning) (hs : d.HasSite s)
    {body : List NodeId} (hbody : d.childrenOf b.site = body)
    (hfresh : ∀ x ∈ body, d.findChild s (style.name (d.node x).name) = none)
    (howner : d.InBody s → ∀ q ∈ d.siblings s, ∀ x ∈ body,
      q.owner = (style.name (d.node x).name).owner) :
    Ends (body.forM fun c => do discard <| attach s (← copyNode style c)) d
      (fun _ d' => Grafted style s body d d' ∧ d'.Discerning) fun _ _ => True := by
  have hlocals : (body.map fun x => (d.node x).name.localName).Nodup := by
    have hnodup := hd.bodies b.site ⟨b, .refl _⟩
    rwa [siblings, List.map_map, hbody] at hnodup
  refine ends_forM (I := fun pre d' => Grafted style s pre d d' ∧ d'.Discerning) body
    ⟨.nil hsound, hd⟩ ?_
  rintro pre x post d₁ hl ⟨hg, hd₁⟩
  have hx : x ∈ body := by rw [hl]; simp
  have hk := hg.changes.keeps
  have hx₁ : x ∈ d₁.childrenOf b.site :=
    (hk.children b.site (hasSite_of_mem_childrenOf (hbody ▸ hx))).subset (hbody ▸ hx)
  have hname : (d₁.node x).name = (d.node x).name := hk.name x (hsound.child_lt (hbody ▸ hx))
  -- what was copied before has other local names
  have hother : ∀ y ∈ pre, (d.node y).name.localName ≠ (d.node x).name.localName := by
    intro y hy heq
    rw [hl, List.map_append, List.map_cons, List.nodup_append] at hlocals
    exact hlocals.2.2 _ (List.mem_map_of_mem hy) _ List.mem_cons_self heq
  refine (ends_copyTo_discerning hg.changes.sound hd₁ (hk.hasSite hs) hx₁ ?_ ?_).mono ?_
    fun _ _ _ => trivial
  · rw [hname, hg.siblings_self hsound, List.mem_append]
    rintro (hold | hnew)
    · exact not_mem_siblings (hfresh x hx) hold
    · obtain ⟨y, hy, heq⟩ := List.mem_map.1 hnew
      refine hother y hy ?_
      simpa using congrArg QName.localName heq
  · rintro ⟨b', hb'⟩ hmem
    rw [hname, hg.siblings_self hsound] at hmem
    obtain ⟨q, hq, heq⟩ := List.mem_map.1 hmem
    rcases List.mem_append.1 hq with hold | hnew
    · have hin : d.InBody s := ⟨b', (hk.under_iff hsound hs).1 hb'⟩
      have hsame : q = style.name (d.node x).name :=
        QName.eq_of_owner (howner hin q hold x hx) (by rw [heq, CopyStyle.localName_name])
      exact not_mem_siblings (hfresh x hx) (hsame ▸ hold)
    · obtain ⟨y, hy, rfl⟩ := List.mem_map.1 hnew
      exact hother y hy (by simpa using heq)
  · rintro _ d₃ ⟨⟨c, r, d₂, hcopied⟩, hd₃⟩
    exact ⟨hg.snoc hsound hs (hsound.child_lt (hbody ▸ hx)) hcopied, hd₃⟩

/-- Copying uses to a site. -/
theorem ends_copyUsesTo_discerning (hsound : d.Sound) (hd : d.Discerning) (hs : d.HasSite s)
    (l : List UsesId) (hl : ∀ u ∈ l, u.index < d.uses.size) :
    Ends (l.forM fun u => do pushUses s (← copyUses style u)) d
      (fun _ d' => UsesPut s d d' ∧ d'.Discerning) fun _ _ => False := by
  refine ends_forM (I := fun _ d' => UsesPut s d d' ∧ d'.Discerning) l ⟨.refl hsound, hd⟩ ?_
  rintro pre u post d₁ hpre ⟨hput, hd₁⟩
  have hu : u.index < d₁.uses.size :=
    Nat.lt_of_lt_of_le (hl u (by rw [hpre]; simp)) hput.keeps.uses_le
  rw [ends_bind]
  refine (ends_copyUses_furnished hput.sound hu).mono ?_ fun _ _ hE => hE
  rintro v d₂ ⟨⟨hg, hv, hlt⟩, hf⟩
  rw [ends_pushUses hg.sound.unfrozen]
  have hd₂ : d₂.Discerning :=
    hg.discerning hput.sound hd₁ (fun t ht => inBody_of_inside_uses hput.sound ht) hf
  refine ⟨hput.trans hsound (usesPut_pushedUses (hput.keeps.hasSite hs) hg hv hlt),
    hd₂.of_same (fun t => childrenOf_pushedUses s t v) (fun i => ?_) fun i => ?_⟩
  · rw [node_pushedUses]
    rfl
  · rw [node_pushedUses]

/-- Merging an augmentation; around the target are no bodies of other modules. -/
theorem ends_merge_discerning (hfollows : d₀.Follows d) (hd : d.Discerning)
    (ha : a.index < d₀.augments.size) (hn : n.index < d.nodes.size)
    (hhome : ∀ b' : Owner, d.Under (.node n) b'.site → d₀.HasSite b'.site ∧
      (d₀.augment a).facts.home = d₀.homeOf b') :
    Ends (merge a n) d (fun _ d' => d'.Discerning) fun _ _ => True := by
  have hsound := hfollows.sound
  have hs : d.HasSite (.node n) := hn
  refine ends_merge_of (fun _ => trivial) (fun _ _ _ => trivial) fun _ hfree => ?_
  have hfresh : ∀ c ∈ (d.augment a).children,
      d.findChild (.node n) (CopyStyle.name { augmenting := true } (d.node c).name) = none :=
    findClash_eq_none id hfree
  unfold mergeBody
  rw [ends_bind]
  refine (ends_graft_discerning (b := .augment a) hsound hd hs rfl hfresh ?_).mono ?_
    fun _ _ _ => trivial
  · rintro ⟨b', hb'⟩ q hq x hx
    obtain ⟨c, hc, rfl⟩ := List.mem_map.1 hq
    obtain ⟨hb₀, hhome⟩ := hhome b' hb'
    rw [hfollows.owner hb₀ (hsound.under_of_mem hb' hc), ← hhome]
    exact (hfollows.owner (b := .augment a) ha (hsound.under_of_mem (.refl _) hx)).symm
  rintro - d₁ ⟨hg, hd₁⟩
  rw [ends_bind]
  refine (ends_copyUsesTo_discerning hg.changes.sound hd₁ (hg.changes.keeps.hasSite hs) _
    fun u hu => ?_).mono ?_ fun _ _ hE => hE.elim
  · exact Nat.lt_of_lt_of_le (hsound.uses_lt (.augment a) u hu) hg.changes.keeps.uses_le
  rintro - d₂ ⟨hput, hd₂⟩
  rw [ends_editNode hput.sound.unfrozen]
  exact hd₂.alike ((harmless_noteMerged a _).alike hput.sound.unfrozen n)

end Draft

namespace UsesTask

variable {d₀ d : Draft} {t : UsesTask}

/-- Merging the augmentations in a uses. -/
theorem Stands.ends_mergeAll_discerning (ht : t.Stands d₀) (h₀ : d₀.Sound) (hfollows : d₀.Follows d)
    (hd : d.Discerning) {l : List AugmentId} (hl : l ⊆ (d₀.usesOf t.uses).augmentations) :
    Ends (l.forM (mergeBelow t.site)) d (fun _ d' => d'.Discerning) fun _ _ => True := by
  refine (Edit.ends_forM (I := fun _ d' => d₀.Follows d' ∧ d'.Discerning) l ⟨hfollows, hd⟩ ?_).mono
    (fun _ _ h => h.2) fun _ _ h => h
  rintro pre a post d₁ hpre ⟨hfollows₁, hd₁⟩
  have ha : a ∈ (d₀.usesOf t.uses).augmentations := hl (by rw [hpre]; simp)
  have hsound := hfollows₁.sound
  refine ends_mergeBelow_of (fun _ => trivial) fun n hn => ?_
  refine ((ends_merge hsound (findDescendant_lt hsound hn)).and (ends_merge_discerning hfollows₁ hd₁
    (h₀.augment_lt t.uses a ha) (findDescendant_lt hsound hn) fun b' hb' => ?_)).mono ?_
    fun _ _ _ => trivial
  · have hb := under_of_under_site (findDescendant_under hsound hn) hb'
    have hb₀ := (hfollows₁.keeps.under_iff h₀ ht.site).1 hb
    refine ⟨h₀.hasSite_above hb₀ ht.site, ?_⟩
    rw [(ht.inner a ha).2, (ht.owner_of_follows h₀ hfollows₁ hb).2]
  · rintro - d₂ ⟨hm, hd₂⟩
    have hmakes := ht.makes_mergedAll h₀ (List.cons_subset.2 ⟨ha, List.nil_subset _⟩) hfollows₁
      (.cons hn hm .nil)
    exact ⟨hmakes.follows, hd₂⟩

/-- Expanding a uses. -/
theorem Stands.ends_attempt_discerning (ht : t.Stands d₀) (h₀ : d₀.Sound)
    (hacyclic : ∀ g, t.resolve d₀ = some g → t.innermostGrouping ≠ some g) (hfollows : d₀.Follows d)
    (hd : d.Discerning) (busy : List Owner) :
    Ends (t.attempt busy) d (fun _ d' => d'.Discerning) fun _ _ => True := by
  have hsound := hfollows.sound
  have hs : d.HasSite t.site := hfollows.keeps.hasSite ht.site
  refine ends_attempt_of (fun _ => hd) (fun _ _ _ _ _ _ _ => trivial) fun g hres _ hfree => ?_
  have hfresh := findClash_eq_none (QName.bindTo t.home) hfree
  unfold UsesTask.expand
  rw [ends_bind, ends_editUses hsound.unfrozen]
  -- the uses is marked
  have hquiet := quiet_marked hsound t.site t.uses (d.grouping g).facts.path
  have hd₁ : (d.marked t.uses (d.grouping g).facts.path).Discerning :=
    hd.alike (alike_marked hsound.unfrozen _ _)
  have hfollows₁ := hfollows.quiet hquiet
  have hs₁ := hquiet.keeps.hasSite hs
  -- the body is copied
  unfold copyBody
  rw [ends_bind, ends_bind]
  refine (ends_graft_discerning (b := .grouping g) hquiet.sound hd₁ hs₁ rfl
    (fun x hx => ?_) ?_).mono ?_ fun _ _ _ => trivial
  · rw [hquiet.findChild hsound hs]
    exact hfresh x hx
  · rintro ⟨b', hb'⟩ q hq x hx
    obtain ⟨c, hc, rfl⟩ := List.mem_map.1 hq
    have hb₀ := (hfollows₁.keeps.under_iff h₀ ht.site).1 hb'
    rw [hfollows₁.owner (h₀.hasSite_above hb₀ ht.site) (hquiet.sound.under_of_mem hb' hc)]
    exact (ht.owner_of_follows h₀ hfollows₁ hb').2
  rintro - d₂ ⟨hg, hd₂⟩
  have hacyclic' := hacyclic g (hfollows.resolve t ▸ hres)
  have htakes := ht.takes h₀ hacyclic' hfollows hfresh hquiet hg
  have hfollows₂ : d₀.Follows d₂ := hfollows₁.takes (b := .grouping g) hfollows₁.hasSite_grouping
    htakes fun b' hb' q _ => (ht.owner_of_follows h₀ hfollows₁ hb').2.symm
  have hk := hquiet.keeps.trans hg.changes.keeps
  refine (ends_copyUsesTo_discerning hg.changes.sound hd₂ (hk.hasSite hs) _ fun u hu => ?_).mono ?_
    fun _ _ hE => hE.elim
  · exact Nat.lt_of_lt_of_le (hsound.uses_lt (.grouping g) u hu) hk.uses_le
  rintro - d₃ ⟨hput, hd₃⟩
  have hfollows₃ := hfollows₂.quiet hput.toQuiet
  -- the refines
  rw [ends_bind]
  refine (ends_refines hput.sound t.refines t.site).mono ?_ fun _ _ _ => trivial
  rintro - d₄ hrefined
  have hfollows₄ := hfollows₃.quiet hrefined.toQuiet
  -- the augmentations inside
  refine (ht.ends_mergeAll_discerning h₀ hfollows₄ (hd₃.alike hrefined.alike) ?_).mono ?_
    fun _ _ _ => trivial
  · rw [hfollows.augmentations t.uses ht.uses]
    exact List.Subset.refl _
  · rintro - d₅ hd₅
    exact hd₅

end UsesTask

end YangSchema
