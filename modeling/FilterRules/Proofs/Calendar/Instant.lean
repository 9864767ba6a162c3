import FilterRules.Calendar.Instant
import Mathlib.Algebra.Order.Ring.Nat
import Mathlib.Data.List.Basic
import Mathlib.Data.List.Induction

/-!
# The text form of an instant

A run of digits is written again as it was read when it is padded to its own length, and a number that is
padded to a run of digits is read again. The text form of an instant has seven runs of digits with fixed
marks between them; a text is read as an instant when it has this form and its runs write the fields of
the instant. An instant that was read is therefore written as the text that it was read from.
-/

namespace FilterRules

namespace Text

/-- The ten digits follow each other. -/
theorem le_of_isDigit {c : Char} (h : c.isDigit = true) : 48 ≤ c.toNat ∧ c.toNat ≤ 57 := by
  simp only [Char.isDigit, Bool.and_eq_true, decide_eq_true_eq] at h
  exact ⟨UInt32.le_iff_toNat_le.mp h.1, UInt32.le_iff_toNat_le.mp h.2⟩

/-- A digit has a value below ten. -/
theorem sub_lt_of_isDigit {c : Char} (h : c.isDigit = true) : c.toNat - '0'.toNat < 10 := by
  have hbounds := le_of_isDigit h
  have hzero : '0'.toNat = 48 := rfl
  omega

/-- The character of a digit's value is the digit. -/
theorem digitChar_of_isDigit {c : Char} (h : c.isDigit = true) :
    Nat.digitChar (c.toNat - '0'.toNat) = c := by
  have hbounds := le_of_isDigit h
  have hzero : '0'.toNat = 48 := rfl
  refine Char.toNat_inj.mp ?_
  rw [Nat.toNat_digitChar_of_lt_ten (sub_lt_of_isDigit h)]
  omega

/-- The number of a run of digits with one more digit behind it. -/
theorem digitsValue_concat (digits : List Char) (c : Char) :
    digitsValue (digits ++ [c]) = 10 * digitsValue digits + (c.toNat - '0'.toNat) := by
  simp [digitsValue]

/-- The number of a run of digits has no more digits than the run. -/
theorem digitsValue_lt {digits : List Char} (h : ∀ c ∈ digits, c.isDigit = true) :
    digitsValue digits < 10 ^ digits.length := by
  induction digits using List.reverseRecOn with
  | nil => simp [digitsValue]
  | append_singleton digits c ih =>
    have hfront := ih fun d hd => h d (by simp [hd])
    have hlast := sub_lt_of_isDigit (h c (by simp))
    rw [digitsValue_concat, List.length_append, List.length_singleton, pow_succ]
    omega

/-- A text that writes a number is a run of digits. -/
theorem natural?_eq_some_iff {text : List Char} {n : Nat} :
    natural? text = some n ↔ text ≠ [] ∧ (∀ c ∈ text, c.isDigit = true) ∧ digitsValue text = n := by
  rw [natural?]
  constructor
  · intro h
    obtain ⟨hdigits, h⟩ := Option.ite_none_right_eq_some.mp h
    exact ⟨by simp_all, by simp_all, Option.some.inj h⟩
  · rintro ⟨hne, hdigits, rfl⟩
    rw [if_pos (by simpa [hne] using hdigits)]

/-- A run of ASCII digits of a fixed length. -/
def AreDigits (width : Nat) (digits : List Char) : Prop :=
  digits.length = width ∧ ∀ c ∈ digits, c.isDigit = true

/-- A text that writes a number is a run of digits. -/
theorem areDigits_of_natural? {text : List Char} {n : Nat} (h : natural? text = some n) :
    AreDigits text.length text ∧ n = digitsValue text := by
  obtain ⟨_, hdigits, rfl⟩ := natural?_eq_some_iff.mp h
  exact ⟨⟨rfl, hdigits⟩, rfl⟩

namespace AreDigits

variable {width : Nat} {digits : List Char}

/-- A run of digits that is not empty writes a number. -/
theorem natural?_eq (h : AreDigits (width + 1) digits) :
    natural? digits = some (digitsValue digits) := by
  refine natural?_eq_some_iff.mpr ⟨fun hempty => ?_, h.2, rfl⟩
  simpa [hempty] using h.1

/-- The number of a run of digits has no more digits than the run. -/
theorem value_lt (h : AreDigits width digits) : digitsValue digits < 10 ^ width :=
  h.1 ▸ digitsValue_lt h.2

end AreDigits

end Text

namespace Instant

open Text (natural? digitsValue AreDigits)

/-- A padded number with one more digit behind it. -/
theorem padded_succ {width n digit : Nat} (hwidth : 0 < width) (hdigit : digit < 10) :
    padded (width + 1) (10 * n + digit) = padded width n ++ [Nat.digitChar digit] := by
  simp only [padded]
  by_cases hzero : n = 0
  · obtain ⟨zeros, rfl⟩ := Nat.exists_eq_add_one.mpr hwidth
    subst hzero
    rw [Nat.mul_zero, Nat.zero_add, Nat.toDigits_zero, Nat.toDigits_of_lt_base hdigit]
    simp [List.replicate_succ']
  · have hdigits : Nat.toDigits 10 (10 * n + digit) = Nat.toDigits 10 n ++ [Nat.digitChar digit] := by
      rw [← Nat.toDigits_of_lt_base hdigit]
      exact (Nat.toDigits_append_toDigits (by decide) (Nat.pos_of_ne_zero hzero) hdigit).symm
    rw [hdigits, List.length_append, List.length_singleton, Nat.add_sub_add_right,
      List.append_assoc]

/-- A run of digits is written as it was read. -/
theorem padded_digitsValue {digits : List Char} (hne : digits ≠ [])
    (h : ∀ c ∈ digits, c.isDigit = true) : padded digits.length (digitsValue digits) = digits := by
  induction digits using List.reverseRecOn with
  | nil => exact absurd rfl hne
  | append_singleton digits c ih =>
    have hlast : c.isDigit = true := h c (by simp)
    rw [Text.digitsValue_concat, List.length_append, List.length_singleton]
    by_cases hfront : digits = []
    · subst hfront
      have hdigits : Nat.toDigits 10 (c.toNat - '0'.toNat) = [c] := by
        rw [Nat.toDigits_of_lt_base (Text.sub_lt_of_isDigit hlast),
          Text.digitChar_of_isDigit hlast]
      simp only [padded, digitsValue, List.foldl_nil, Nat.mul_zero, Nat.zero_add, hdigits]
      rfl
    · rw [padded_succ (List.length_pos_iff.mpr hfront) (Text.sub_lt_of_isDigit hlast),
        ih hfront fun d hd => h d (by simp [hd]), Text.digitChar_of_isDigit hlast]

/-- A run of digits is the number that it writes, padded to its length. -/
theorem padded_of_areDigits {width : Nat} {digits : List Char} (h : AreDigits (width + 1) digits) :
    padded (width + 1) (digitsValue digits) = digits := by
  rw [← h.1]
  refine padded_digitsValue (fun hempty => ?_) h.2
  simpa [hempty] using h.1

/-- A number below a power of ten is padded to a run of digits, which write it. -/
theorem areDigits_padded (width : Nat) {n : Nat} (h : n < 10 ^ (width + 1)) :
    AreDigits (width + 1) (padded (width + 1) n) ∧ digitsValue (padded (width + 1) n) = n := by
  induction width generalizing n with
  | zero =>
    have hdigit : n < 10 := by simpa using h
    have hone : padded 1 n = [Nat.digitChar n] := by
      rw [padded, Nat.toDigits_of_lt_base hdigit]
      rfl
    have hvalue : digitsValue [Nat.digitChar n] = n := by
      simp [digitsValue, Nat.toNat_digitChar_of_lt_ten hdigit]
    rw [hone]
    exact ⟨⟨rfl, by simpa using hdigit⟩, hvalue⟩
  | succ width ih =>
    have hdigit : n % 10 < 10 := Nat.mod_lt _ (by decide)
    have hfront : n / 10 < 10 ^ (width + 1) := by
      rw [pow_succ] at h
      exact Nat.div_lt_of_lt_mul (by omega)
    obtain ⟨⟨hlength, hall⟩, hvalue⟩ := ih hfront
    have hsplit : padded (width + 1 + 1) n = padded (width + 1) (n / 10) ++ [Nat.digitChar (n % 10)] := by
      rw [← padded_succ (Nat.succ_pos width) hdigit, Nat.div_add_mod]
    rw [hsplit]
    refine ⟨⟨by simp [hlength], List.forall_mem_append.mpr ⟨hall, by simpa using hdigit⟩⟩, ?_⟩
    have hzero : '0'.toNat = 48 := rfl
    rw [Text.digitsValue_concat, hvalue, Nat.toNat_digitChar_of_lt_ten hdigit, hzero]
    omega

/-- A year that four digits write is written by them. -/
theorem yearText_of_areDigits {digits : List Char} (h : AreDigits 4 digits) :
    yearText (digitsValue digits) = digits := by
  have hlt := h.value_lt
  rw [yearText, if_neg (by omega), if_neg (by omega), Int.natAbs_natCast, padded_of_areDigits h]

/-- The runs of digits of a date text. -/
structure Parts where
  /-- The year. -/
  year : List Char
  /-- The month. -/
  month : List Char
  /-- The day of the month. -/
  day : List Char
  /-- The hour. -/
  hour : List Char
  /-- The minute. -/
  minute : List Char
  /-- The second. -/
  second : List Char
  /-- The millisecond. -/
  millisecond : List Char

namespace Parts

/-- The text of some parts, with the marks between them. -/
def text (parts : Parts) : List Char :=
  parts.year ++ '-' :: parts.month ++ '-' :: parts.day ++ 'T' :: parts.hour ++ ':' :: parts.minute ++
    ':' :: parts.second ++ '.' :: parts.millisecond ++ ['Z']

/-- Parts of the right lengths: `YYYY-MM-DDTHH:mm:ss.sssZ`. -/
structure HaveForm (parts : Parts) : Prop where
  /-- The year has four digits. -/
  year : AreDigits 4 parts.year
  /-- The month has two digits. -/
  month : AreDigits 2 parts.month
  /-- The day has two digits. -/
  day : AreDigits 2 parts.day
  /-- The hour has two digits. -/
  hour : AreDigits 2 parts.hour
  /-- The minute has two digits. -/
  minute : AreDigits 2 parts.minute
  /-- The second has two digits. -/
  second : AreDigits 2 parts.second
  /-- The millisecond has three digits. -/
  millisecond : AreDigits 3 parts.millisecond

/-- Parts that write the fields of an instant. -/
structure Write (parts : Parts) (instant : Instant) : Prop where
  /-- The year. -/
  year : instant.year = digitsValue parts.year
  /-- The month. -/
  month : instant.month = digitsValue parts.month
  /-- The day of the month. -/
  day : instant.day = digitsValue parts.day
  /-- The hour. -/
  hour : instant.hour = digitsValue parts.hour
  /-- The minute. -/
  minute : instant.minute = digitsValue parts.minute
  /-- The second. -/
  second : instant.second = digitsValue parts.second
  /-- The milliseconds. -/
  nanosecond : instant.nanosecond = digitsValue parts.millisecond * 1000000

end Parts

/-- The parts in which an instant is written. -/
def parts (instant : Instant) : Parts :=
  ⟨yearText instant.year, padded 2 instant.month, padded 2 instant.day, padded 2 instant.hour,
    padded 2 instant.minute, padded 2 instant.second, padded 3 (instant.nanosecond / 1000000)⟩

/-- The text form of an instant is the text of its parts. -/
theorem toList_isoText (instant : Instant) : instant.isoText.toList = instant.parts.text :=
  String.toList_ofList

/-- Parts of the right lengths that write an instant are its own. -/
theorem Parts.Write.parts_eq {parts : Parts} {instant : Instant} (h : parts.Write instant)
    (hform : parts.HaveForm) : instant.parts = parts := by
  have hfraction : digitsValue parts.millisecond * 1000000 / 1000000 = digitsValue parts.millisecond :=
    Nat.mul_div_cancel _ (by decide)
  rw [Instant.parts, h.year, h.month, h.day, h.hour, h.minute, h.second, h.nanosecond, hfraction,
    yearText_of_areDigits hform.year, padded_of_areDigits hform.month, padded_of_areDigits hform.day,
    padded_of_areDigits hform.hour, padded_of_areDigits hform.minute,
    padded_of_areDigits hform.second, padded_of_areDigits hform.millisecond]

/-- An instant is made of the fields that name it. -/
theorem ofFields?_eq_some_iff {year : Int} {month day hour minute second nanosecond : Nat}
    {instant : Instant} :
    ofFields? year month day hour minute second nanosecond = some instant ↔
      instant.year = year ∧ instant.month = month ∧ instant.day = day ∧ instant.hour = hour ∧
        instant.minute = minute ∧ instant.second = second ∧ instant.nanosecond = nanosecond := by
  rw [ofFields?]
  constructor
  · intro h
    split at h
    case isTrue hreal =>
      obtain rfl := Option.some.inj h
      exact ⟨rfl, rfl, rfl, rfl, rfl, rfl, rfl⟩
    case isFalse => simp at h
  · rintro ⟨rfl, rfl, rfl, rfl, rfl, rfl, rfl⟩
    rw [dif_pos instant.real]

/-- A text is read as an instant when it has the form of a date and its parts write the instant. -/
theorem ofIso?_eq_some_iff {text : String} {instant : Instant} : ofIso? text = some instant ↔
    ∃ parts : Parts, text.toList = parts.text ∧ parts.HaveForm ∧ parts.Write instant := by
  constructor
  · intro h
    rw [ofIso?] at h
    split at h
    next y₁ y₂ y₃ y₄ m₁ m₂ d₁ d₂ h₁ h₂ n₁ n₂ s₁ s₂ f₁ f₂ f₃ htext =>
      simp only [Option.bind_eq_bind, Option.bind_eq_some_iff] at h
      obtain ⟨year, hyear, month, hmonth, day, hday, hour, hhour, minute, hminute, second, hsecond,
        millisecond, hmillisecond, hfields⟩ := h
      obtain ⟨hform₁, rfl⟩ := Text.areDigits_of_natural? hyear
      obtain ⟨hform₂, rfl⟩ := Text.areDigits_of_natural? hmonth
      obtain ⟨hform₃, rfl⟩ := Text.areDigits_of_natural? hday
      obtain ⟨hform₄, rfl⟩ := Text.areDigits_of_natural? hhour
      obtain ⟨hform₅, rfl⟩ := Text.areDigits_of_natural? hminute
      obtain ⟨hform₆, rfl⟩ := Text.areDigits_of_natural? hsecond
      obtain ⟨hform₇, rfl⟩ := Text.areDigits_of_natural? hmillisecond
      obtain ⟨hwrite₁, hwrite₂, hwrite₃, hwrite₄, hwrite₅, hwrite₆, hwrite₇⟩ :=
        ofFields?_eq_some_iff.mp hfields
      exact ⟨⟨[y₁, y₂, y₃, y₄], [m₁, m₂], [d₁, d₂], [h₁, h₂], [n₁, n₂], [s₁, s₂], [f₁, f₂, f₃]⟩,
        htext, ⟨hform₁, hform₂, hform₃, hform₄, hform₅, hform₆, hform₇⟩,
        ⟨hwrite₁, hwrite₂, hwrite₃, hwrite₄, hwrite₅, hwrite₆, hwrite₇⟩⟩
    next => simp at h
  · rintro ⟨⟨year, month, day, hour, minute, second, millisecond⟩, htext, hform, hwrite⟩
    obtain ⟨y₁, y₂, y₃, y₄, rfl⟩ : ∃ y₁ y₂ y₃ y₄, year = [y₁, y₂, y₃, y₄] :=
      List.length_eq_four.mp hform.year.1
    obtain ⟨m₁, m₂, rfl⟩ : ∃ m₁ m₂, month = [m₁, m₂] := List.length_eq_two.mp hform.month.1
    obtain ⟨d₁, d₂, rfl⟩ : ∃ d₁ d₂, day = [d₁, d₂] := List.length_eq_two.mp hform.day.1
    obtain ⟨h₁, h₂, rfl⟩ : ∃ h₁ h₂, hour = [h₁, h₂] := List.length_eq_two.mp hform.hour.1
    obtain ⟨n₁, n₂, rfl⟩ : ∃ n₁ n₂, minute = [n₁, n₂] := List.length_eq_two.mp hform.minute.1
    obtain ⟨s₁, s₂, rfl⟩ : ∃ s₁ s₂, second = [s₁, s₂] := List.length_eq_two.mp hform.second.1
    obtain ⟨f₁, f₂, f₃, rfl⟩ : ∃ f₁ f₂ f₃, millisecond = [f₁, f₂, f₃] :=
      List.length_eq_three.mp hform.millisecond.1
    rw [ofIso?, htext]
    simp only [Parts.text, List.cons_append, List.nil_append, hform.year.natural?_eq,
      hform.month.natural?_eq, hform.day.natural?_eq, hform.hour.natural?_eq,
      hform.minute.natural?_eq, hform.second.natural?_eq, hform.millisecond.natural?_eq,
      Option.bind_eq_bind, Option.bind_some]
    exact ofFields?_eq_some_iff.mpr ⟨hwrite.year, hwrite.month, hwrite.day, hwrite.hour,
      hwrite.minute, hwrite.second, hwrite.nanosecond⟩

/-- An instant that was read is written as the text that it was read from. -/
theorem isoText_of_ofIso? {text : String} {instant : Instant} (h : ofIso? text = some instant) :
    instant.isoText = text := by
  obtain ⟨parts, htext, hform, hwrite⟩ := ofIso?_eq_some_iff.mp h
  apply String.toList_injective
  rw [toList_isoText, hwrite.parts_eq hform, htext]

end Instant

end FilterRules
