import YangSchema.Draft.Freeze
import YangSchema.Proofs.Draft.Duplicating

/-!
# Copies of nodes

Whatever else there is in a draft, frozen or not: a node from which every way down ends is copied, and the
copy is a tree of new definitions of the same shape (`copyNode_isomorphic`).
-/

namespace YangSchema

namespace Draft

open Edit

variable {d : Draft} {x y : Item} {source : NodeId}

/-- Every way down from `x` ends, and leads through definitions that are there. -/
inductive Grounded (d : Draft) : Item → Prop
  | mk {x : Item} (hx : d.HasItem x) (h : ∀ y, d.Contains y x → Grounded d y) : Grounded d x

namespace Grounded

theorem hasItem (h : d.Grounded x) : d.HasItem x := by
  cases h with
  | mk hx _ => exact hx

theorem of_contains (h : d.Grounded x) (hy : d.Contains y x) : d.Grounded y := by
  cases h with
  | mk _ h => exact h y hy

theorem of_contents {l : List Item} (hx : d.HasItem x) (hl : d.contents x = l)
    (h : ∀ y ∈ l, d.Grounded y) : d.Grounded x :=
  .mk hx fun y hy => h y (hl ▸ hy)

theorem nests (h : d.Grounded x) : Nests d.Contains d.size x := by
  refine Nests.of_acc (P := d.Grounded) (fun _ _ hx hy => hx.of_contains hy) d.itemNumber
    (fun _ hx => itemNumber_lt hx.hasItem) (fun _ _ hx hy => itemNumber_inj hx.hasItem hy.hasItem) h ?_
  induction h with
  | mk _ _ ih => exact ⟨_, ih⟩

end Grounded

/-- A node is copied, and no record that there was is changed or frozen.  At every place below the source and
the copy there is nothing, or a definition and a new one that says the same up to the style; and no new
definition stands at two places. -/
theorem copyNode_isomorphic (style : CopyStyle) (hsource : d.Grounded (.site (.node source))) :
    ∃ copy d', (copyNode style source).perform d = (.ok copy, d') ∧
      d.Extends d' ∧ d.SameSnapshots d' ∧ (d'.node copy).parent = none ∧
      (∀ p, Option.Rel (style.ItemLike d d') (d.itemAt? (.site (.node source)) p)
        (d'.itemAt? (.site (.node copy)) p)) ∧
      (∀ p y, d'.itemAt? (.site (.node copy)) p = some y → ¬ d.HasItem y ∧ d'.HasItem y) ∧
      ∀ p q y, d'.itemAt? (.site (.node copy)) p = some y →
        d'.itemAt? (.site (.node copy)) q = some y → p = q := by
  have hcopy : Ends (copyNode style source) d (fun copy d' => d.Adds d' ∧
      Mirrors style d (New d d') d' [.site (.node source)] [.site (.node copy)] ∧
      (d'.node copy).parent = none) fun _ _ => False := by
    rw [copyNode, ends_bind, ends_get]
    exact (duplicates (P := d.Grounded) (fun _ _ hx hy => hx.of_contains hy) (fun _ hx => hx.hasItem)
      d.size).1 source d (.refl d) hsource hsource.nests
  cases hrun : (copyNode style source).perform d with
  | mk r d' =>
    cases r with
    | error f => exact (hcopy.of_error hrun).elim
    | ok copy =>
      obtain ⟨hadds, hm, hparent⟩ := hcopy.of_ok hrun
      exact ⟨copy, d', rfl, hadds.extends_, hadds.snapshots, hparent, hm.alike 0, hm.inside 0,
        fun p q y hp hq => (hm.once 0 p 0 q y hp hq).2⟩

/-- A list with a frozen key leaf, and with a uses that augments what it brings by a leaf. -/
def keyedList : Draft :=
  (Edit.perform (do
    let list ← addNode (.blank (.list [⟨default, "key"⟩]) ⟨default, "entry"⟩)
    let key ← addNode (.blank .leaf ⟨default, "key"⟩)
    let _ ← attach (.node list) key
    let a ← addAugment { facts := { target := ⟨false, [⟨default, "box"⟩]⟩, order := 0, home := default } }
    let more ← addNode (.blank .leaf ⟨default, "more"⟩)
    let _ ← attach (.augment a) more
    let u ← addUses { facts := { grouping := .root }, augmentations := [a] }
    pushUses (.node list) u
    freezeNode key) {}).2

theorem copyNode_keyedList : ∃ copy d',
    (copyNode { bindTo := some ⟨"urn:n", none⟩, byUses := true } ⟨0⟩).perform keyedList = (.ok copy, d') ∧
    keyedList.Extends d' ∧ (d'.node copy).kind = .list [⟨⟨"urn:n", none⟩, "key"⟩] ∧
    d'.itemAt? (.site (.node copy)) [1, 0, 0] = some (.site (.node ⟨5⟩)) ∧
    (d'.node ⟨5⟩).origin = some ⟨2⟩ ∧ (d'.node ⟨5⟩).name = ⟨⟨"urn:n", none⟩, "more"⟩ := by
  have hkey : keyedList.Grounded (.site (.node ⟨1⟩)) :=
    .of_contents (by decide : 1 < 3) rfl fun _ hy => absurd hy List.not_mem_nil
  have hmore : keyedList.Grounded (.site (.node ⟨2⟩)) :=
    .of_contents (by decide : 2 < 3) rfl fun _ hy => absurd hy List.not_mem_nil
  have haugment : keyedList.Grounded (.site (.augment ⟨0⟩)) :=
    .of_contents (by decide : 0 < 1) rfl fun y hy => List.mem_singleton.1 hy ▸ hmore
  have huses : keyedList.Grounded (.uses ⟨0⟩) :=
    .of_contents (by decide : 0 < 1) rfl fun y hy => List.mem_singleton.1 hy ▸ haugment
  have hlist : keyedList.Grounded (.site (.node ⟨0⟩)) := by
    refine .of_contents (l := [.site (.node ⟨1⟩), .uses ⟨0⟩]) (by decide : 0 < 3) rfl fun y hy => ?_
    rcases List.mem_cons.1 hy with rfl | hy
    · exact hkey
    · exact List.mem_singleton.1 hy ▸ huses
  obtain ⟨copy, d', hrun, hext, -⟩ :=
    copyNode_isomorphic { bindTo := some ⟨"urn:n", none⟩, byUses := true } hlist
  obtain rfl : copy = ⟨3⟩ := (Except.ok.inj (congrArg Prod.fst hrun)).symm
  obtain rfl := congrArg Prod.snd hrun
  exact ⟨_, _, hrun, hext, rfl, rfl, rfl, rfl⟩

end Draft

end YangSchema
