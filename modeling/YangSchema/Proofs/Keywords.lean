import Mathlib.Logic.Function.Basic
import YangSchema.Keyword

/-!
# How keywords are classified

What a text can be read as is a word of the language, an extension whose qualifier has no colon, or a
text without a colon that is no word (`Keyword.IsWritten`).  No word has a colon, so at most one of the
three is written like a given text, and this is what the text is read as (`Keyword.parse_eq_iff`): nothing
of a text is lost, and every keyword that is ever read is read again from its own text.
-/

namespace YangSchema

theorem Word.colon_not_mem (w : Word) : ':' ∉ w.text.toList := by
  have hall : ∀ v ∈ Word.all, ':' ∉ v.text.toList := by decide +kernel
  exact hall w w.mem_all

namespace Keyword

variable {s : String} {k : Keyword} {w : Word}

/-- The keywords that a text can be read as. -/
def IsWritten : Keyword → Prop
  | word _ => True
  | extension qualifier _ => ':' ∉ qualifier.toList
  | other s => (∀ w : Word, w.text ≠ s) ∧ ':' ∉ s.toList

/-! ## Words -/

/-- Every word is found by its text, so no two words are written alike. -/
theorem wordOf?_text (w : Word) : wordOf? w.text = some w := by
  have hall : ∀ v ∈ Word.all, wordOf? v.text = some v := by decide +kernel
  exact hall w w.mem_all

theorem wordOf?_eq_some : wordOf? s = some w ↔ w.text = s := by
  constructor
  · exact text_of_wordOf?
  · rintro rfl
    exact wordOf?_text w

theorem wordOf?_eq_none : wordOf? s = none ↔ ∀ w : Word, w.text ≠ s := by
  rw [Option.eq_none_iff_forall_ne_some]
  exact forall_congr' fun w => not_congr wordOf?_eq_some

/-! ## Reading and writing -/

theorem isWritten_parse (s : String) : (parse s).IsWritten := by
  unfold parse
  split
  · trivial
  · next hword =>
    split
    · next qualifier name hcut =>
      show ':' ∉ (String.ofList qualifier).toList
      rw [String.toList_ofList]
      exact (Text.eq_append_of_cut hcut).2
    · next hcut => exact ⟨wordOf?_eq_none.1 hword, Text.cut_eq_none_iff.1 hcut⟩

theorem toList_text_extension (qualifier name : String) :
    (extension qualifier name).text.toList = qualifier.toList ++ ':' :: name.toList := by
  simp [text]

/-- An extension is written with a colon, and no word is. -/
theorem text_ne_text_extension (w : Word) (qualifier name : String) :
    w.text ≠ (extension qualifier name).text := by
  intro heq
  apply w.colon_not_mem
  rw [heq, toList_text_extension]
  simp

theorem parse_text (hk : k.IsWritten) : parse k.text = k := by
  cases k with
  | word w =>
    show parse w.text = word w
    rw [parse, wordOf?_text]
  | extension qualifier name =>
    have hword := wordOf?_eq_none.2 fun w => text_ne_text_extension w qualifier name
    have hcut : Text.cut ':' (extension qualifier name).text.toList =
        some (qualifier.toList, name.toList) := by
      rw [toList_text_extension]
      exact Text.cut_append name.toList hk
    rw [parse, hword, hcut]
    simp
  | other s =>
    show parse s = other s
    rw [parse, wordOf?_eq_none.2 hk.1, Text.cut_eq_none_iff.2 hk.2]

/-- A text is read as the one keyword that is written so. -/
theorem parse_eq_iff : parse s = k ↔ k.IsWritten ∧ k.text = s := by
  constructor
  · rintro rfl
    exact ⟨isWritten_parse s, text_parse s⟩
  · rintro ⟨hk, rfl⟩
    exact parse_text hk

theorem parse_injective : Function.Injective parse :=
  Function.LeftInverse.injective (g := text) text_parse

theorem parse_eq_extension {qualifier name : String} :
    parse s = extension qualifier name ↔ (∀ w : Word, w.text ≠ s) ∧
      s.toList = qualifier.toList ++ ':' :: name.toList ∧ ':' ∉ qualifier.toList := by
  rw [parse_eq_iff, ← String.toList_inj, toList_text_extension, eq_comm (b := s.toList)]
  constructor
  · rintro ⟨hqualifier, hs⟩
    refine ⟨fun w hw => w.colon_not_mem ?_, hs, hqualifier⟩
    rw [hw, hs]
    simp
  · rintro ⟨-, hs, hqualifier⟩
    exact ⟨hqualifier, hs⟩

theorem exists_parse_eq_extension :
    (∃ qualifier name, parse s = extension qualifier name) ↔
      (∀ w : Word, w.text ≠ s) ∧ ':' ∈ s.toList := by
  constructor
  · rintro ⟨qualifier, name, hparse⟩
    obtain ⟨hword, hs, -⟩ := parse_eq_extension.1 hparse
    exact ⟨hword, by simp [hs]⟩
  · rintro ⟨hword, hcolon⟩
    cases hparse : parse s with
    | word w => exact absurd (parse_eq_iff.1 hparse).2 (hword w)
    | extension qualifier name => exact ⟨qualifier, name, rfl⟩
    | other t =>
      obtain ⟨⟨-, hnot⟩, rfl⟩ := parse_eq_iff.1 hparse
      exact absurd hcolon hnot

/-- Keywords are classified without loss: every text is read back from its keyword, so no two texts
have the same one; a keyword that is read from any text is read from its own; and a text is read as the
word that is written so, else as an extension if it has a colon, cut at the first one, and else as no
statement of the language. -/
theorem classification_lossless :
    (∀ s, (parse s).text = s) ∧ Function.Injective parse ∧
    (∀ k, (∃ s, parse s = k) → parse k.text = k) ∧
    (∀ s w, parse s = word w ↔ w.text = s) ∧
    (∀ s, (∃ qualifier name, parse s = extension qualifier name) ↔
      (∀ w : Word, w.text ≠ s) ∧ ':' ∈ s.toList) ∧
    (∀ s qualifier name, parse s = extension qualifier name ↔ (∀ w : Word, w.text ≠ s) ∧
      s.toList = qualifier.toList ++ ':' :: name.toList ∧ ':' ∉ qualifier.toList) ∧
    ∀ s t, parse s = other t ↔ ((∀ w : Word, w.text ≠ t) ∧ ':' ∉ t.toList) ∧ t = s := by
  refine ⟨text_parse, parse_injective, ?_, fun s w => ?_, fun s => exists_parse_eq_extension,
    fun s qualifier name => parse_eq_extension, fun s t => parse_eq_iff⟩
  · rintro k ⟨s, rfl⟩
    exact parse_text (isWritten_parse s)
  · rw [parse_eq_iff]
    exact and_iff_right trivial

/-- Cut at the first of two colons, with nothing in front of it. -/
theorem classification_lossless_twoColons :
    (∃ s, parse s = extension "" "a:b") ∧ parse ":a:b" = extension "" "a:b" := by
  obtain ⟨-, -, hread, -⟩ := classification_lossless
  have hsome : ∃ s, parse s = extension "" "a:b" := ⟨":a:b", by decide +kernel⟩
  exact ⟨hsome, hread _ hsome⟩

end Keyword

end YangSchema
