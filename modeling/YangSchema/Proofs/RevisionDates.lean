import Mathlib.Data.Nat.Digits.Defs
import Mathlib.Data.String.Basic
import YangSchema.Proofs.WrittenPaths

/-!
# Revisions as dates

A revision is written `YYYY-MM-DD` (`IsDate`), and its text is read as a date exactly then
(`readDate_eq_some`).  The characters of a date are all encoded by one byte, so it makes no difference
whether a text is read by its characters or by its bytes (`readDate_byteChars`).

All dates have the same width.  Of two numbers of the same width the one with the smaller digit at the
first difference is the smaller one (`lt_iff_digitsValueFrom`), so revisions, which are compared as texts,
are in the order of their dates (`Revision.compare_eq_dateOrder`).
-/

namespace YangSchema

/-! ## The form of a date -/

/-- The text of the number `n` with the given count of digits, the ones last. -/
structure Writes (width : Nat) (ds : List Char) (n : Nat) : Prop where
  length : ds.length = width
  digits : ∀ c ∈ ds, IsDigit c
  value : n = Nat.ofDigits 10 (ds.reverse.map fun c => c.toNat - '0'.toNat)

/-- A year of four digits, a month from 1 to 12 and a day from 1 to 31, with hyphens in between. -/
inductive IsDate : List Char → Nat × Nat × Nat → Prop
  | intro {ys ms ds : List Char} {year month day : Nat} (hyear : Writes 4 ys year)
      (hmonth : Writes 2 ms month) (hmonths : 1 ≤ month ∧ month ≤ 12)
      (hday : Writes 2 ds day) (hdays : 1 ≤ day ∧ day ≤ 31) :
      IsDate (ys ++ '-' :: (ms ++ '-' :: ds)) (year, month, day)

/-- The year decides first, then the month, and then the day. -/
def dateOrder (a b : Nat × Nat × Nat) : Ordering :=
  (compare a.1 b.1).then ((compare a.2.1 b.2.1).then (compare a.2.2 b.2.2))

variable {cs ds s t : List Char} {m n width : Nat} {date date' : Nat × Nat × Nat}

/-! ## Numbers -/

/-- The number that is written as `n` and the digits behind it. -/
def digitsValueFrom (n : Nat) (ds : List Char) : Nat :=
  ds.foldl (fun n d => 10 * n + (d.toNat - '0'.toNat)) n

theorem digitsValueFrom_eq (n : Nat) (ds : List Char) : digitsValueFrom n ds =
    10 ^ ds.length * n + Nat.ofDigits 10 (ds.reverse.map fun c => c.toNat - '0'.toNat) := by
  induction ds generalizing n with
  | nil => simp [digitsValueFrom]
  | cons d ds ih =>
    have hcons : digitsValueFrom n (d :: ds) =
        digitsValueFrom (10 * n + (d.toNat - '0'.toNat)) ds := rfl
    rw [hcons, ih, List.reverse_cons, List.map_append, Nat.ofDigits_append, List.length_map,
      List.length_reverse, List.length_cons, List.map_singleton, Nat.ofDigits_singleton]
    ring

theorem digitsValue_eq (ds : List Char) :
    digitsValue ds = Nat.ofDigits 10 (ds.reverse.map fun c => c.toNat - '0'.toNat) := by
  have hfrom := digitsValueFrom_eq 0 ds
  rwa [Nat.mul_zero, Nat.zero_add] at hfrom

theorem writes_digitsValue (hlength : ds.length = width) (hdigits : ∀ c ∈ ds, IsDigit c) :
    Writes width ds (digitsValue ds) :=
  ⟨hlength, hdigits, digitsValue_eq ds⟩

theorem Writes.eq_digitsValue (h : Writes width ds n) : n = digitsValue ds :=
  h.value.trans (digitsValue_eq ds).symm

/-- What begins with the smaller number is the smaller one, whatever digits follow. -/
theorem digitsValueFrom_lt (hlength : cs.length = ds.length) (hcs : ∀ c ∈ cs, IsDigit c)
    (h : m < n) : digitsValueFrom m cs < digitsValueFrom n ds := by
  induction cs generalizing ds m n with
  | nil =>
    obtain rfl : ds = [] := List.length_eq_zero_iff.1 hlength.symm
    exact h
  | cons c cs ih =>
    obtain ⟨d, ds, rfl⟩ := List.exists_cons_of_length_eq_add_one hlength.symm
    obtain ⟨hc, hcs⟩ := List.forall_mem_cons.1 hcs
    have hrange := hc.toNat
    show digitsValueFrom (10 * m + (c.toNat - 48)) cs < digitsValueFrom (10 * n + (d.toNat - 48)) ds
    apply ih _ hcs
    · omega
    · simpa using hlength

/-- The first different digit decides. -/
theorem lt_iff_digitsValueFrom (hlength : cs.length = ds.length) (hcs : ∀ c ∈ cs, IsDigit c)
    (hds : ∀ d ∈ ds, IsDigit d) : cs < ds ↔ digitsValueFrom n cs < digitsValueFrom n ds := by
  induction cs generalizing ds n with
  | nil =>
    obtain rfl : ds = [] := List.length_eq_zero_iff.1 hlength.symm
    simp
  | cons c cs ih =>
    obtain ⟨d, ds, rfl⟩ := List.exists_cons_of_length_eq_add_one hlength.symm
    obtain ⟨hc, hcs'⟩ := List.forall_mem_cons.1 hcs
    obtain ⟨hd, hds'⟩ := List.forall_mem_cons.1 hds
    have hlength' : cs.length = ds.length := by simpa using hlength
    have hcrange := hc.toNat
    have hdrange := hd.toNat
    rw [List.cons_lt_cons_iff]
    show _ ↔ digitsValueFrom (10 * n + (c.toNat - 48)) cs <
      digitsValueFrom (10 * n + (d.toNat - 48)) ds
    rcases lt_trichotomy c d with hlt | heq | hgt
    · have hdigit : c.toNat < d.toNat := hlt
      exact iff_of_true (.inl hlt) (digitsValueFrom_lt hlength' hcs' (by omega))
    · subst heq
      rw [← ih hlength' hcs' hds']
      simp
    · have hdigit : d.toNat < c.toNat := hgt
      have hvalue := digitsValueFrom_lt (m := 10 * n + (d.toNat - 48))
        (n := 10 * n + (c.toNat - 48)) hlength'.symm hds' (by omega)
      refine iff_of_false ?_ (Nat.lt_asymm hvalue)
      rintro (hlt | ⟨heq, -⟩)
      · exact lt_asymm hlt hgt
      · exact hgt.ne heq.symm

theorem Writes.lt_iff (hcs : Writes width cs m) (hds : Writes width ds n) : cs < ds ↔ m < n := by
  rw [hcs.eq_digitsValue, hds.eq_digitsValue]
  exact lt_iff_digitsValueFrom (hcs.length.trans hds.length.symm) hcs.digits hds.digits

theorem Writes.eq_iff (hcs : Writes width cs m) (hds : Writes width ds n) : cs = ds ↔ m = n := by
  constructor
  · rintro rfl
    exact hcs.value.trans hds.value.symm
  · rintro rfl
    rcases lt_trichotomy cs ds with hlt | heq | hgt
    · exact absurd ((hcs.lt_iff hds).1 hlt) (lt_irrefl m)
    · exact heq
    · exact absurd ((hds.lt_iff hcs).1 hgt) (lt_irrefl m)

/-! ## Dates -/

theorem readDate_eq_some : readDate s = some date ↔ IsDate s date := by
  constructor
  · intro h
    unfold readDate at h
    split at h
    · next y₁ y₂ y₃ y₄ m₁ m₂ d₁ d₂ =>
      dsimp only at h
      split at h
      · next hread =>
        cases h
        simp only [List.all_cons, List.all_nil, Bool.and_true, Bool.and_eq_true,
          decide_eq_true_eq, ← isDigit_iff] at hread
        obtain ⟨⟨⟨hy₁, hy₂, hy₃, hy₄, hm₁, hm₂, hd₁, hd₂⟩, hmonths⟩, hdays⟩ := hread
        have hyear : Writes 4 [y₁, y₂, y₃, y₄] (digitsValue [y₁, y₂, y₃, y₄]) :=
          writes_digitsValue rfl (by simp [hy₁, hy₂, hy₃, hy₄])
        have hmonth : Writes 2 [m₁, m₂] (digitsValue [m₁, m₂]) :=
          writes_digitsValue rfl (by simp [hm₁, hm₂])
        have hday : Writes 2 [d₁, d₂] (digitsValue [d₁, d₂]) :=
          writes_digitsValue rfl (by simp [hd₁, hd₂])
        exact .intro hyear hmonth hmonths hday hdays
      · cases h
    · cases h
  · rintro @⟨ys, ms, ds, year, month, day, hyear, hmonth, hmonths, hday, hdays⟩
    have hys := hyear.digits
    have hms := hmonth.digits
    have hds := hday.digits
    obtain rfl := hyear.eq_digitsValue
    obtain rfl := hmonth.eq_digitsValue
    obtain rfl := hday.eq_digitsValue
    obtain ⟨y₁, ys, rfl⟩ := List.exists_cons_of_length_eq_add_one hyear.length
    obtain ⟨y₂, y₃, y₄, rfl⟩ := List.length_eq_three.1 (Nat.succ.inj hyear.length)
    obtain ⟨m₁, m₂, rfl⟩ := List.length_eq_two.1 hmonth.length
    obtain ⟨d₁, d₂, rfl⟩ := List.length_eq_two.1 hday.length
    simp only [List.forall_mem_cons, isDigit_iff] at hys hms hds
    simp [readDate, hys, hms, hds, hmonths, hdays]

/-! ## The order of dates -/

theorem append_lt_append_iff (hlength : cs.length = ds.length) :
    cs ++ s < ds ++ t ↔ cs < ds ∨ cs = ds ∧ s < t := by
  induction cs generalizing ds with
  | nil =>
    obtain rfl : ds = [] := List.length_eq_zero_iff.1 hlength.symm
    simp
  | cons c cs ih =>
    obtain ⟨d, ds, rfl⟩ := List.exists_cons_of_length_eq_add_one hlength.symm
    have hlength' : cs.length = ds.length := by simpa using hlength
    rw [List.cons_append, List.cons_append, List.cons_lt_cons_iff, List.cons_lt_cons_iff,
      ih hlength', List.cons.injEq, and_or_left, or_assoc, and_assoc]

/-- Texts of dates are in the order of the dates. -/
theorem IsDate.lt_iff (hs : IsDate s date) (ht : IsDate t date') :
    s < t ↔ dateOrder date date' = .lt := by
  obtain ⟨hyear, hmonth, -, hday, -⟩ := hs
  obtain ⟨hyear', hmonth', -, hday', -⟩ := ht
  rw [append_lt_append_iff (hyear.length.trans hyear'.length.symm), List.cons_lt_cons_self,
    append_lt_append_iff (hmonth.length.trans hmonth'.length.symm), List.cons_lt_cons_self,
    hyear.lt_iff hyear', hyear.eq_iff hyear', hmonth.lt_iff hmonth', hmonth.eq_iff hmonth',
    hday.lt_iff hday']
  simp only [dateOrder, Ordering.then_eq_lt, Nat.compare_eq_lt, Nat.compare_eq_eq]

theorem dateOrder_swap (a b : Nat × Nat × Nat) : dateOrder b a = (dateOrder a b).swap := by
  simp only [dateOrder, Ordering.swap_then, ← Std.OrientedOrd.eq_swap]

/-! ## Bytes -/

namespace Text

variable {text : String} {c : Char}

/-- The characters with the numbers of the bytes of a text. -/
def byteChars (text : String) : List Char := text.toUTF8.data.toList.map Char.ofUInt8

theorem byteChars_eq (text : String) :
    byteChars text = (text.toList.flatMap String.utf8EncodeChar).map Char.ofUInt8 := by
  have hbytes : text.toUTF8.data.toList = text.toList.flatMap String.utf8EncodeChar := by
    conv_lhs => rw [← String.ofList_toList (s := text)]
    exact List.toList_data_toByteArray
  rw [byteChars, hbytes]

theorem toNat_ofUInt8 (b : UInt8) : (Char.ofUInt8 b).toNat = b.toNat := rfl

/-- A character below 128 is encoded by the one byte of its number. -/
theorem utf8EncodeChar_of_lt (hc : c.toNat < 128) :
    String.utf8EncodeChar c = [UInt8.ofNat c.toNat] := by
  show (if c.toNat ≤ 127 then _ else _) = _
  rw [if_pos (by omega)]
  rfl

/-- Every other character is encoded with bytes that are no such number. -/
theorem exists_byte_of_le (hc : 128 ≤ c.toNat) :
    ∃ b ∈ String.utf8EncodeChar c, 128 ≤ b.toNat := by
  have hval : 128 ≤ c.val.toNat := hc
  fun_cases String.utf8EncodeChar c
  · omega
  all_goals
    refine ⟨_, List.mem_cons_self, ?_⟩
    rw [UInt8.toNat_ofNat']
    omega

theorem byteChars_of_ascii (h : ∀ c ∈ text.toList, c.toNat < 128) :
    byteChars text = text.toList := by
  rw [byteChars_eq]
  generalize text.toList = s at h
  induction s with
  | nil => rfl
  | cons c s ih =>
    obtain ⟨hc, hs⟩ := List.forall_mem_cons.1 h
    have hchar : Char.ofUInt8 (UInt8.ofNat c.toNat) = c := by
      rw [← Char.toNat_inj, toNat_ofUInt8, UInt8.toNat_ofNat', Nat.mod_eq_of_lt (by omega)]
    rw [List.flatMap_cons, utf8EncodeChar_of_lt hc, List.map_append, List.map_singleton, hchar, ih hs]
    rfl

theorem exists_mem_byteChars (h : ∃ c ∈ text.toList, 128 ≤ c.toNat) :
    ∃ c ∈ byteChars text, 128 ≤ c.toNat := by
  obtain ⟨c, hc, hlarge⟩ := h
  obtain ⟨b, hb, hbyte⟩ := exists_byte_of_le hlarge
  rw [byteChars_eq]
  exact ⟨Char.ofUInt8 b, List.mem_map_of_mem (List.mem_flatMap_of_mem hc hb), hbyte⟩

end Text

theorem IsDate.ascii (h : IsDate s date) : ∀ c ∈ s, c.toNat < 128 := by
  obtain ⟨hyear, hmonth, -, hday, -⟩ := h
  have hdigit : ∀ {c}, IsDigit c → c.toNat < 128 := by
    intro c hc
    have hrange := hc.toNat
    omega
  intro c hc
  simp only [List.mem_append, List.mem_cons] at hc
  rcases hc with hc | rfl | hc | rfl | hc
  · exact hdigit (hyear.digits c hc)
  · decide
  · exact hdigit (hmonth.digits c hc)
  · decide
  · exact hdigit (hday.digits c hc)

theorem readDate_of_not_ascii (h : ∃ c ∈ s, 128 ≤ c.toNat) : readDate s = none := by
  obtain ⟨c, hc, hlarge⟩ := h
  refine Option.eq_none_iff_forall_ne_some.2 fun date hdate => ?_
  have hsmall := (readDate_eq_some.1 hdate).ascii c hc
  omega

/-- It makes no difference whether a text is read by its characters or by its bytes. -/
theorem readDate_byteChars (text : String) : readDate (Text.byteChars text) = readDate text.toList := by
  by_cases hascii : ∀ c ∈ text.toList, c.toNat < 128
  · rw [Text.byteChars_of_ascii hascii]
  · -- a character of more than one byte is no part of a date, and neither is its first byte
    have hlarge : ∃ c ∈ text.toList, 128 ≤ c.toNat := by simpa using hascii
    rw [readDate_of_not_ascii hlarge, readDate_of_not_ascii (Text.exists_mem_byteChars hlarge)]

/-! ## Revisions -/

namespace Revision

variable {r r' : Revision} {text : String}

theorem isDate_date (r : Revision) : IsDate r.text.toList r.date := by
  rw [← readDate_eq_some, Revision.date, Option.some_get]

theorem exists_parse_eq_ok :
    (∃ r, parse text = .ok r ∧ r.text = text) ↔ ∃ date, IsDate text.toList date := by
  constructor
  · rintro ⟨r, -, rfl⟩
    exact ⟨r.date, r.isDate_date⟩
  · rintro ⟨date, hdate⟩
    obtain ⟨r, rfl⟩ : ∃ r : Revision, r.text = text :=
      ⟨⟨text, Option.isSome_of_eq_some (readDate_eq_some.2 hdate)⟩, rfl⟩
    exact ⟨r, parse_text r, rfl⟩

theorem compare_eq_lt_iff_text : compare r r' = .lt ↔ r.text.toList < r'.text.toList :=
  (compare_eq_lt (v := some r) (w := some r')).trans String.lt_iff_toList_lt

theorem compare_eq_dateOrder (r r' : Revision) : compare r r' = dateOrder r.date r'.date := by
  have hbefore : compare r r' = .lt ↔ dateOrder r.date r'.date = .lt :=
    compare_eq_lt_iff_text.trans (r.isDate_date.lt_iff r'.isDate_date)
  have hafter : compare r r' = .gt ↔ dateOrder r.date r'.date = .gt := by
    rw [Std.OrientedCmp.gt_iff_lt, compare_eq_lt_iff_text, r'.isDate_date.lt_iff r.isDate_date,
      dateOrder_swap, Ordering.swap_eq_lt]
  cases hc : compare r r' <;> cases hd : dateOrder r.date r'.date <;> simp_all

/-- A text is read as a revision exactly if it is a date, written `YYYY-MM-DD`, and its bytes tell as much
as its characters do.  Revisions are compared by year, month and day, and only equal texts are equal
revisions. -/
theorem ordered_by_date :
    (∀ text, (∃ r, parse text = .ok r ∧ r.text = text) ↔ ∃ date, IsDate text.toList date) ∧
    (∀ text, (∃ r, parse text = .ok r ∧ r.text = text) ↔ ∃ date, IsDate (Text.byteChars text) date) ∧
    ∀ text text' r r', parse text = .ok r → parse text' = .ok r' →
      IsDate text.toList r.date ∧ IsDate text'.toList r'.date ∧
      compare r r' = dateOrder r.date r'.date ∧ (compare r r' = .eq ↔ text = text') := by
  refine ⟨fun text => exists_parse_eq_ok, fun text => ?_, fun text text' r r' hr hr' => ?_⟩
  · rw [exists_parse_eq_ok]
    simp only [← readDate_eq_some, readDate_byteChars]
  · obtain rfl := parse_eq_ok_iff.1 hr
    obtain rfl := parse_eq_ok_iff.1 hr'
    refine ⟨r.isDate_date, r'.isDate_date, compare_eq_dateOrder r r', ?_⟩
    rw [Std.LawfulEqCmp.compare_eq_iff_eq, text_inj]

/-- The first of January of a year comes after the last of December of the year before. -/
theorem ordered_by_date_turnOfYear :
    parse "2016-12-31" = .ok ⟨"2016-12-31", by decide⟩ ∧
    parse "2017-01-01" = .ok ⟨"2017-01-01", by decide⟩ ∧
    compare (⟨"2016-12-31", by decide⟩ : Revision) ⟨"2017-01-01", by decide⟩ = .lt := by
  have hold : parse "2016-12-31" = .ok ⟨"2016-12-31", by decide⟩ := parse_text ⟨"2016-12-31", _⟩
  have hnew : parse "2017-01-01" = .ok ⟨"2017-01-01", by decide⟩ := parse_text ⟨"2017-01-01", _⟩
  obtain ⟨-, -, hcompare, -⟩ := ordered_by_date.2.2 _ _ _ _ hold hnew
  exact ⟨hold, hnew, hcompare.trans (by decide)⟩

end Revision

end YangSchema
