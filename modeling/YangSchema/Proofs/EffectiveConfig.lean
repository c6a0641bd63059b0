import YangSchema.Proofs.Definitions
import YangSchema.Proofs.Namespaces

/-!
# Effective configuration

Whether a node of a schema is configuration is read off the nodes above it at the place where it
stands, in the draft that is left after refines and deviations.  The way up from a node is the same in
the frozen tree and in the draft (`Draft.ModuleSnapshot.exists_ascent`), it is the lineage of the node
(`Draft.Sound.lineage_eq`), and no node on it stands in the body of a grouping or of an augmentation.
-/

namespace YangSchema

/-! ## Ways up -/

/-- The way from something up to one of the things at the top. -/
inductive Ascent {α : Type} (top : List α) (children : α → List α) : List α → Prop
  | top {x : α} (h : x ∈ top) : Ascent top children [x]
  | step {x p : α} {above : List α} (hp : Ascent top children (p :: above)) (h : x ∈ children p) :
    Ascent top children (x :: p :: above)

namespace Draft

variable {d : Draft} {k : ModuleId} {i : NodeId} {is : List NodeId} {m : Module} {n : Node}
  {l : List Node}

/-- The way up from a node of a module to its top level. -/
def Ascends (d : Draft) (k : ModuleId) (is : List NodeId) : Prop :=
  Ascent (d.childrenOf (.module k)) (fun i => d.childrenOf (.node i)) is

/-! ### Lineages -/

/-- A way up goes on as long as there are fewer steps down left. -/
theorem Sound.nests_ascent (hd : d.Sound) (h : d.Ascends k is) : ∃ i above n, is = i :: above ∧
    Nests (fun c i => c ∈ d.childrenOf (.node i)) n i ∧ n + above.length = d.nodes.size := by
  induction h with
  | @top i h => exact ⟨i, [], _, rfl, hd.nests_nodes (hd.child_lt h), rfl⟩
  | @step i p above hp h ih =>
    obtain ⟨p, above, n, heq, hn, hlength⟩ := ih
    cases heq
    cases hn with
    | @mk n _ hdown =>
      refine ⟨i, _, n, rfl, hdown i h, ?_⟩
      rw [List.length_cons]
      omega

theorem Sound.lineageUpTo_eq (hd : d.Sound) (h : d.Ascends k (i :: is)) {fuel : Nat}
    (hfuel : is.length < fuel) : d.lineageUpTo fuel i = i :: is := by
  generalize hup : i :: is = up at h
  induction h generalizing i is fuel with
  | top h =>
    cases hup
    obtain ⟨fuel, rfl⟩ := Nat.exists_eq_add_one_of_ne_zero (Nat.ne_zero_of_lt hfuel)
    rw [lineageUpTo, hd.parent_eq h]
  | step hp h ih =>
    cases hup
    obtain ⟨fuel, rfl⟩ := Nat.exists_eq_add_one_of_ne_zero (Nat.ne_zero_of_lt hfuel)
    rw [lineageUpTo, hd.parent_eq h]
    exact congrArg _ (ih (Nat.lt_of_succ_lt_succ hfuel) rfl)

/-- The lineage of a node is the whole way up. -/
theorem Sound.lineage_eq (hd : d.Sound) (h : d.Ascends k (i :: is)) : d.lineage i = i :: is := by
  refine hd.lineageUpTo_eq h ?_
  obtain ⟨_, _, n, heq, hn, hlength⟩ := hd.nests_ascent h
  cases heq
  cases hn
  omega

theorem Sound.under_of_ascends (hd : d.Sound) (h : d.Ascends k is) :
    ∀ i ∈ is, d.Under (.node i) (.module k) := by
  induction h with
  | top h =>
    intro i hi
    obtain rfl := List.mem_singleton.1 hi
    exact hd.under_of_mem (.refl _) h
  | step hp h ih =>
    intro i hi
    rcases List.mem_cons.1 hi with rfl | hi
    · exact hd.under_of_mem (ih _ List.mem_cons_self) h
    · exact ih i hi

/-- Nothing on the way up from a node of a module stands in a body. -/
theorem Sound.not_inBody_of_ascends (hd : d.Sound) (h : d.Ascends k is) :
    ∀ i ∈ is, ¬ d.InBody (.node i) := by
  rintro i hi ⟨b, hb⟩
  have hmodule := hd.under_of_ascends h i hi
  exact b.site_ne_module k (hb.root_unique hmodule b.site_ne_node fun j hj => by cases hj)

/-! ### Snapshots -/

theorem ModuleSnapshot.exists_ascent (h : d.ModuleSnapshot k m)
    (hl : Ascent m.topLevel Node.children l) :
    ∃ is, d.Ascends k is ∧ List.Forall₂ d.NodeSnapshot is l := by
  induction hl with
  | top hn =>
    obtain ⟨i, hi, hin⟩ := h.exists_top hn
    exact ⟨[i], .top hi, .cons hin .nil⟩
  | step hp hn ih =>
    obtain ⟨is, his, hsnapshots⟩ := ih
    cases hsnapshots with
    | cons hpp hrest =>
      obtain ⟨i, hi, hin⟩ := hpp.exists_child hn
      exact ⟨_, .step his hi, .cons hin (.cons hpp hrest)⟩

/-- A node that is no shorthand case has its effective `config`. -/
theorem NodeSnapshot.config (h : d.NodeSnapshot i n) (hk : (d.node i).kind.isShorthandCase = false) :
    n.config = d.effectiveConfig i := by
  obtain ⟨_ | f, hf⟩ := h
  · exact hf.elim
  · obtain ⟨children, augmentations, -, -, hn⟩ := hf
    rw [if_neg (by simp [hk])] at hn
    obtain ⟨origin, groupings, uses, -, -, -, rfl⟩ := hn
    rfl

/-- Snapshots are of the kinds of what they were taken of. -/
theorem any_kind_snapshot (h : List.Forall₂ d.NodeSnapshot is l) (p : NodeKind → Bool) :
    (is.map d.node).any (fun r => p r.kind) = l.any fun n => p n.kind := by
  induction h with
  | nil => rfl
  | cons h _ ih => simp only [List.map_cons, List.any_cons, ih, h.kind]

/-- The `config` stated by the first of the nodes that states one. -/
def statedConfig (d : Draft) (is : List NodeId) : Option Bool :=
  is.findSome? fun i => (d.node i).config

/-- The effective `config` by the way up, as the frozen tree shows it. -/
theorem Sound.effectiveConfig_eq (hd : d.Sound) (h : d.Ascends k (i :: is))
    (hl : List.Forall₂ d.NodeSnapshot (i :: is) l) : d.effectiveConfig i =
      if l.any (·.kind.isOperationOrEvent) then false else (d.statedConfig (i :: is)).getD true := by
  unfold effectiveConfig statedConfig
  rw [hd.lineage_eq h, ← any_kind_snapshot hl]
  simp only [List.findSome?_map]
  rfl

end Draft

/-! ## Trees -/

theorem Node.exists_ascent {top : List Node} {n t : Node} {above : List Node}
    (h : Ascent top Node.children (n :: above)) (ht : t ∈ n.preorder) :
    ∃ above, Ascent top Node.children (t :: above) := by
  rcases Node.mem_preorder.1 ht with rfl | ⟨c, hc, ht⟩
  · exact ⟨above, h⟩
  · exact Node.exists_ascent (.step h hc) ht
termination_by sizeOf n
decreasing_by exact Node.sizeOf_lt_of_mem_children hc

/-- There is a way up from every node of some trees. -/
theorem Node.exists_ascent_of_top {top : List Node} {t : Node} (ht : t ∈ Node.preorderAll top) :
    ∃ above, Ascent top Node.children (t :: above) := by
  rw [Node.preorderAll_eq_flatMap] at ht
  obtain ⟨n, hn, ht⟩ := List.mem_flatMap.1 ht
  exact Node.exists_ascent (.top hn) ht

theorem Module.ascent_childNamed {m : Module} {p n : Node} {a b : String}
    (hp : m.childNamed? a = some p) (hn : p.childNamed? b = some n) :
    Ascent m.topLevel Node.children [n, p] := by
  have htop : p ∈ m.topLevel := by simp [Module.topLevel, List.mem_of_find?_eq_some hp]
  exact .step (.top htop) (List.mem_of_find?_eq_some hn)

/-! ## Builds -/

/-- In the schema of a build nothing is configuration in an operation, its input or output, or a
notification.  Else a node has the `config` that is stated nearest to it on the way up, in the draft that
the refines and the deviations leave, and is configuration if none is stated there; the way up leads
through the module and never through the body of a grouping or of an augmentation.  A shorthand case has
the `config` of its child. -/
theorem config_readUpwards {sources : List ParsedSource} {config : BuildConfig} {schema : Schema}
    (h : buildSchema sources config = .ok schema) :
    ∃ modules w d d', Builds.Course sources config modules w d d' schema ∧
      ∀ m ∈ schema.modules, ∃ k ∈ modules, d'.ModuleSnapshot k m ∧
        (∀ n ∈ Node.preorderAll m.topLevel, ∃ above, Ascent m.topLevel Node.children (n :: above)) ∧
        ∀ n above, Ascent m.topLevel Node.children (n :: above) →
          (∃ is, d'.Ascends k is ∧ List.Forall₂ d'.NodeSnapshot is (n :: above)) ∧
          ∀ is, d'.Ascends k is → List.Forall₂ d'.NodeSnapshot is (n :: above) →
            (∀ i ∈ is, ¬ d'.InBody (.node i)) ∧
            (n.kind.isShorthandCase = false →
              ((∃ a ∈ n :: above, a.kind ∈ [.rpc, .action, .input, .output, .notification]) →
                n.config = false) ∧
              ((∀ a ∈ n :: above, a.kind ∉ [.rpc, .action, .input, .output, .notification]) →
                n.config = (d'.statedConfig is).getD true)) ∧
            (n.kind.isShorthandCase = true → ∃ c, n.children = [c] ∧ n.config = c.config) := by
  obtain ⟨modules, w, d, d', hcourse⟩ := exists_course h
  have hsound : d'.Sound := hcourse.pruned.sound
  refine ⟨modules, w, d, d', hcourse, fun m hm => ?_⟩
  obtain ⟨k, hk, hkm⟩ := exists_of_forall₂_right hcourse.snapshots hm
  refine ⟨k, hk, hkm, fun n hn => Node.exists_ascent_of_top hn, fun n above hup =>
    ⟨hkm.exists_ascent hup, fun is his hsnapshots => ⟨hsound.not_inBody_of_ascends his, ?_, ?_⟩⟩⟩
  · intro hkind
    cases hsnapshots with
    | @cons i _ is _ hin hrest =>
      have hconfig : n.config = _ := (hin.config (hin.kind ▸ hkind)).trans
        (hsound.effectiveConfig_eq his (.cons hin hrest))
      simp only [← NodeKind.isOperationOrEvent_iff]
      refine ⟨fun hsome => ?_, fun hnone => ?_⟩
      · rw [hconfig, if_pos (List.any_eq_true.2 hsome)]
      · rw [hconfig, if_neg]
        simpa using hnone
  · intro hkind
    cases hsnapshots with
    | cons hin _ =>
      obtain ⟨c, rest, child, _, -, -, rfl⟩ := hin.of_shorthand (hin.kind ▸ hkind)
      exact ⟨child, rfl, rfl⟩

/-! ## An example -/

/-- A grouping with a leaf, which is used in a container that is no configuration, and refined in another. -/
def refinedOnce : ParsedSource where
  label := "m.yang"
  root := .ok {
    keyword := .word .moduleWord
    argument := some "m"
    children := [
      { keyword := .word .namespaceWord, argument := some "urn:m" },
      { keyword := .word .prefixWord, argument := some "m" },
      { keyword := .word .grouping, argument := some "g"
        children := [{ keyword := .word .leaf, argument := some "x" }] },
      { keyword := .word .container, argument := some "off"
        children := [{ keyword := .word .config, argument := some "false" },
          { keyword := .word .uses, argument := some "g" }] },
      { keyword := .word .container, argument := some "on"
        children := [
          { keyword := .word .uses, argument := some "g"
            children := [
              { keyword := .word .refine, argument := some "x"
                children := [{ keyword := .word .config, argument := some "false" }] }] }] }] }

/-- The leaf of the first container inherits from the container and not from the grouping; the leaf of the
second one has what the refine states. -/
theorem config_readUpwards_refinedOnce : ∃ (schema : Schema) (m : Module) (off x on y : Node) (d : Draft)
    (k : ModuleId) (is js : List NodeId), buildSchema [refinedOnce] {} = .ok schema ∧ m ∈ schema.modules ∧
      x.origin.map Node.config = some true ∧ y.origin.map Node.config = some true ∧ on.config = true ∧
      d.Ascends k is ∧ List.Forall₂ d.NodeSnapshot is [x, off] ∧
      x.config = (d.statedConfig is).getD true ∧ x.config = false ∧
      d.Ascends k js ∧ List.Forall₂ d.NodeSnapshot js [y, on] ∧
      y.config = (d.statedConfig js).getD true ∧ y.config = false := by
  have hcheck : ((buildSchema [refinedOnce] {}).toOption.any fun schema => schema.modules.any fun m =>
      (m.childNamed? "off").any fun off => (off.childNamed? "x").any fun x =>
      (m.childNamed? "on").any fun on => (on.childNamed? "x").any fun y =>
        decide ((x.origin.map Node.config = some true ∧ y.origin.map Node.config = some true ∧
          on.config = true) ∧ (x.kind = .leaf ∧ off.kind = .container ∧ x.config = false) ∧
          y.kind = .leaf ∧ on.kind = .container ∧ y.config = false)) = true := by
    decide +kernel
  simp only [Option.any_eq_true, List.any_eq_true, toOption_eq_some, decide_eq_true_eq] at hcheck
  obtain ⟨schema, hschema, m, hm, off, hoff, x, hx, on, hon, y, hy, ⟨hxo, hyo, honc⟩,
    ⟨hxk, hoffk, hxc⟩, hyk, honk, hyc⟩ := hcheck
  obtain ⟨_, _, _, d, -, hmodules⟩ := config_readUpwards hschema
  obtain ⟨k, -, -, -, hup⟩ := hmodules m hm
  have hread : ∀ p n : Node, p.kind = .container → n.kind = .leaf →
      Ascent m.topLevel Node.children [n, p] → ∃ is, d.Ascends k is ∧
        List.Forall₂ d.NodeSnapshot is [n, p] ∧ n.config = (d.statedConfig is).getD true := by
    intro p n hp hn hway
    obtain ⟨⟨is, his, hsnapshots⟩, hall⟩ := hup n [p] hway
    have hnone : ∀ a ∈ [n, p], a.kind ∉ [.rpc, .action, .input, .output, .notification] := by
      simp [hn, hp]
    exact ⟨is, his, hsnapshots, ((hall is his hsnapshots).2.1 (by rw [hn]; rfl)).2 hnone⟩
  obtain ⟨is, his, hisn, hisc⟩ := hread off x hoffk hxk (m.ascent_childNamed hoff hx)
  obtain ⟨js, hjs, hjsn, hjsc⟩ := hread on y honk hyk (m.ascent_childNamed hon hy)
  exact ⟨schema, m, off, x, on, y, d, k, is, js, hschema, hm, hxo, hyo, honc, his, hisn, hisc, hxc,
    hjs, hjsn, hjsc, hyc⟩

end YangSchema
