import FilterRules.Conversion
import FilterRules.Proofs.Calendar.Instant
import Mathlib.Data.Rat.Cast.Order
import Mathlib.Tactic.Positivity

/-!
# Whole numbers written as decimals

A text that is declared a number is read as digits into a mantissa of 96 bits and a scale of 28 places, and
what does not fit is rounded off. Whole numbers of 64 bits stay clear of both bounds: the digits in front of
the point fit, however many zeros stand in front of them, and the zeros behind the point either fit or round
to nothing. So they are never read as floating point.
-/

namespace FilterRules

namespace Text

/-- A run of digits whose number is zero has no digit but zeros. -/
theorem eq_replicate_of_digitsValue_eq_zero {digits : List Char}
    (h : ∀ c ∈ digits, c.isDigit = true) (hzero : digitsValue digits = 0) :
    digits = List.replicate digits.length '0' := by
  induction digits using List.reverseRecOn with
  | nil => rfl
  | append_singleton digits c ih =>
    rw [digitsValue_concat] at hzero
    have hbounds := le_of_isDigit (h c (by simp))
    have hchar : '0'.toNat = 48 := rfl
    have hc : c = '0' := Char.toNat_inj.mp (by omega)
    have hfront := ih (fun d hd => h d (by simp [hd])) (by omega)
    rw [List.length_append, List.length_singleton, List.replicate_succ', ← hfront, hc]

end Text

namespace Numeral

/-- A decimal as it is written: a sign or none, digits, and perhaps a point with digits behind it. -/
structure Decimal where
  /-- The sign. -/
  sign : Option Char
  /-- The digits in front of the point. -/
  whole : List Char
  /-- What stands behind the point, if there is one. -/
  fraction : Option (List Char)

/-- A text that begins with neither sign has none. -/
theorem takeSign_of_head? {text : List Char} (h : ∀ c ∈ text.head?, c ≠ '-' ∧ c ≠ '+') :
    takeSign text = (false, text) := by
  rw [takeSign.eq_def]
  split
  · exact absurd rfl (h '-' rfl).1
  · exact absurd rfl (h '+' rfl).2
  · rfl

namespace Decimal

/-- The digits behind the point. -/
def places (decimal : Decimal) : List Char := decimal.fraction.getD []

/-- What makes a decimal. -/
structure IsWritten (decimal : Decimal) : Prop where
  /-- A sign is a plus or a minus. -/
  sign : ∀ c ∈ decimal.sign, c = '+' ∨ c = '-'
  /-- In front of the point there are digits only. -/
  whole : ∀ c ∈ decimal.whole, c.isDigit = true
  /-- Behind the point there are digits only. -/
  places : ∀ c ∈ decimal.places, c.isDigit = true
  /-- There is a digit. -/
  digit : decimal.whole ≠ [] ∨ decimal.places ≠ []

/-- The text of a decimal. -/
def text (decimal : Decimal) : List Char :=
  decimal.sign.toList ++ decimal.whole ++ decimal.fraction.elim [] ('.' :: ·)

/-- Whether a decimal has a minus sign. -/
def isNegative (decimal : Decimal) : Bool := decimal.sign == some '-'

/-- The exact value of a decimal. -/
def value (decimal : Decimal) : ℚ :=
  (if decimal.isNegative then -1 else 1) *
    (Text.digitsValue decimal.whole + Text.digitsValue decimal.places / 10 ^ decimal.places.length)

/-- A number with fewer than `10 ^ count` parts of `10 ^ count` behind it is whole when there are none. -/
theorem eq_of_add_div_eq {above below count : Nat} (hlt : below < 10 ^ count) {n : ℤ}
    (h : (above : ℚ) + below / 10 ^ count = n) : below = 0 ∧ n = above := by
  have hpos : (10 : ℚ) ^ count ≠ 0 := pow_ne_zero _ (by norm_num)
  have hcleared : (below : ℤ) = 10 ^ count * (n - above) := by
    have hrational : (below : ℚ) = 10 ^ count * (n - above) := by
      rw [← h, add_sub_cancel_left, mul_div_cancel₀ _ hpos]
    exact_mod_cast hrational
  have hdvd : 10 ^ count ∣ below := by
    have hint : ((10 ^ count : ℕ) : ℤ) ∣ below := ⟨n - above, by push_cast; exact hcleared⟩
    exact_mod_cast hint
  have hzero : below = 0 := Nat.eq_zero_of_dvd_of_lt hdvd hlt
  refine ⟨hzero, ?_⟩
  rw [hzero, Nat.cast_zero, zero_eq_mul, or_iff_right (by positivity), sub_eq_zero] at hcleared
  exact hcleared

/-- A decimal with a whole value has zeros behind its point. -/
theorem IsWritten.of_value_eq {decimal : Decimal} (h : decimal.IsWritten) {v : ℤ}
    (hvalue : decimal.value = v) : Text.digitsValue decimal.places = 0 ∧
      v = if decimal.isNegative then -(Text.digitsValue decimal.whole : ℤ)
        else Text.digitsValue decimal.whole := by
  have hlt := Text.digitsValue_lt h.places
  rw [value] at hvalue
  cases hsign : decimal.isNegative with
  | false =>
    rw [hsign, if_neg Bool.false_ne_true, one_mul] at hvalue
    simpa using eq_of_add_div_eq hlt hvalue
  | true =>
    rw [hsign, if_pos rfl, neg_one_mul, neg_eq_iff_eq_neg, ← Int.cast_neg] at hvalue
    obtain ⟨hzero, hv⟩ := eq_of_add_div_eq hlt hvalue
    exact ⟨hzero, by rw [if_pos rfl, ← hv, neg_neg]⟩

/-- The sign of a decimal stands in front of its digits. -/
theorem IsWritten.takeSign_text {decimal : Decimal} (h : decimal.IsWritten) :
    takeSign decimal.text =
      (decimal.isNegative, decimal.whole ++ decimal.fraction.elim [] ('.' :: ·)) := by
  obtain ⟨sign, whole, fraction⟩ := decimal
  cases sign with
  | some c =>
    rcases h.sign c rfl with rfl | rfl
    · rfl
    · rfl
  | none =>
    have hfirst : ∀ c ∈ (whole ++ fraction.elim [] ('.' :: ·)).head?, c ≠ '-' ∧ c ≠ '+' := by
      intro c hc
      cases whole with
      | cons digit rest =>
        obtain rfl : digit = c := by simpa using hc
        have hdigit := h.whole digit List.mem_cons_self
        constructor <;> rintro rfl <;> simp at hdigit
      | nil =>
        cases fraction with
        | none => simp at hc
        | some digits =>
          obtain rfl : '.' = c := by simpa using hc
          decide
    simp only [text, Option.toList_none, List.nil_append]
    exact takeSign_of_head? hfirst

end Decimal

namespace Scaled

/-- Digits in front of the point are read as long as their number is below the bound. -/
theorem readDigits_whole {digits : List Char} (h : ∀ c ∈ digits, c.isDigit = true)
    (hfits : Text.digitsValue digits < limit) (rest : List Char) :
    readDigits false false 0 0 (digits ++ rest) =
      readDigits false (!digits.isEmpty) (Text.digitsValue digits) 0 rest := by
  induction digits using List.reverseRecOn generalizing rest with
  | nil => rfl
  | append_singleton digits c ih =>
    have hc : c.isDigit = true := h c (by simp)
    have hvalue := Text.digitsValue_concat digits c
    rw [hvalue] at hfits ⊢
    have hsome : (!(digits ++ [c]).isEmpty) = true := by simp
    rw [List.append_assoc, ih (fun d hd => h d (by simp [hd])) (by omega), List.singleton_append,
      readDigits, Text.digit?, if_pos hc, hsome]
    simp only [Bool.false_eq_true, if_false]
    rw [if_neg (Nat.not_le.mpr hfits)]

/-- Zeros behind the point make no difference to the value, however many there are: those that no longer
fit round to what was read before them. -/
theorem readDigits_zeros {seen : Bool} {count : Nat} (hseen : seen = true ∨ 0 < count)
    (mantissa scale : Nat) :
    ∃ more, readDigits true seen mantissa scale (List.replicate count '0') =
      some (mantissa * 10 ^ more, scale + more) := by
  induction count generalizing seen mantissa scale with
  | zero => exact ⟨0, by simp_all [readDigits]⟩
  | succ count ih =>
    have hdigit : Text.digit? '0' = some 0 := by decide
    rw [List.replicate_succ, readDigits, hdigit]
    simp only [Nat.add_zero, if_true]
    split
    case isTrue =>
      refine ⟨0, ?_⟩
      have hrest : (List.replicate count '0').all (fun left => left.isDigit || left == '_') = true := by
        simp
      rw [roundOffBefore, if_pos hrest, roundOff, if_pos (by decide)]
      simp
    case isFalse =>
      obtain ⟨more, hmore⟩ := ih (Or.inl rfl) (10 * mantissa) (scale + 1)
      refine ⟨more + 1, hmore.trans ?_⟩
      rw [pow_succ, Nat.mul_comm 10, Nat.mul_assoc, Nat.mul_comm 10, Nat.add_assoc, Nat.add_comm 1]

/-- A decimal with a whole value that fits is read exactly. -/
theorem exists_readPlain {decimal : Decimal} (h : decimal.IsWritten)
    (hzero : Text.digitsValue decimal.places = 0)
    (hfits : Text.digitsValue decimal.whole < limit) :
    ∃ scale, readPlain decimal.text =
      some ⟨decimal.isNegative, Text.digitsValue decimal.whole * 10 ^ scale, scale⟩ := by
  have hread : ∃ scale, readDigits false false 0 0
      (decimal.whole ++ decimal.fraction.elim [] ('.' :: ·)) =
        some (Text.digitsValue decimal.whole * 10 ^ scale, scale) := by
    rw [readDigits_whole h.whole hfits]
    have hdigit := h.digit
    have hplaces := h.places
    rw [Decimal.places] at hdigit hplaces hzero
    cases hfraction : decimal.fraction with
    | none =>
      refine ⟨0, ?_⟩
      simp_all [readDigits]
    | some digits =>
      simp only [hfraction, Option.getD_some] at hdigit hplaces hzero
      have hzeros := Text.eq_replicate_of_digitsValue_eq_zero hplaces hzero
      have hdot : Text.digit? '.' = none := by decide
      rw [Option.elim_some, readDigits, hdot]
      simp only [Bool.false_eq_true, if_false, if_true]
      rw [hzeros]
      have hseen : (!decimal.whole.isEmpty) = true ∨ 0 < digits.length := by
        simpa [List.length_pos_iff] using hdigit
      obtain ⟨more, hmore⟩ := readDigits_zeros hseen (Text.digitsValue decimal.whole) 0
      exact ⟨more, by simpa using hmore⟩
  obtain ⟨scale, hscale⟩ := hread
  refine ⟨scale, ?_⟩
  simp only [readPlain, h.takeSign_text, hscale, Option.map_some]

/-- The value of a decimal that is some power of ten of its last place is whole. -/
theorem whole?_eq (negative : Bool) (n scale : Nat) :
    whole? ⟨negative, n * 10 ^ scale, scale⟩ = some (if negative then -(n : Int) else n) := by
  have hpos : 0 < 10 ^ scale := Nat.pow_pos (by decide)
  simp [whole?, Nat.mul_div_cancel _ hpos]

end Scaled

/-- A whole number in the range of 64 bits is one of 64 bits. -/
theorem exists_int64? {v : Int} (h : -2 ^ 63 ≤ v ∧ v < 2 ^ 63) :
    ∃ n, int64? v = some n ∧ n.toInt = v := by
  exact ⟨Int64.ofInt v, if_pos (by simpa using h), Int64.toInt_ofInt_of_le h.1 h.2⟩

end Numeral

namespace Literal

open Numeral (Decimal)

/-- A text that writes a whole number of 64 bits as a decimal is converted to exactly this number: the
decimal has a sign or none, digits with any number of zeros in front, and perhaps a point with any number
of zeros behind it. -/
theorem convert_text_whole {declared : AttributeType} (hnumber : declared.kind = .number) {s : String}
    {decimal : Decimal} (htext : Text.trim s.toList = decimal.text) (hdecimal : decimal.IsWritten)
    {v : ℤ} (hvalue : decimal.value = v) (hrange : -2 ^ 63 ≤ v ∧ v < 2 ^ 63) :
    ∃ n : Int64, (Literal.text s).convert declared = .ok (.integer n) ∧ n.toInt = v := by
  obtain ⟨hzero, hv⟩ := hdecimal.of_value_eq hvalue
  obtain ⟨n, hn, hsame⟩ := Numeral.exists_int64? hrange
  have hfits : Text.digitsValue decimal.whole < Numeral.Scaled.limit := by
    have hlimit : 2 ^ 63 < Numeral.Scaled.limit := by decide
    split at hv <;> omega
  obtain ⟨scale, hplain⟩ := Numeral.Scaled.exists_readPlain hdecimal hzero hfits
  have hread : Numeral.number? (Text.trim s.toList) = some (.integer n) := by
    rw [htext, Numeral.number?, Numeral.Scaled.read?, hplain]
    simp only [Option.orElse_some, Numeral.Scaled.number, Numeral.Scaled.whole?_eq, ← hv, hn,
      Option.bind_some]
  refine ⟨n, ?_, hsame⟩
  simp only [convert, hnumber, number?, hread, Option.elim_some]

/-- The least number of 64 bits stays exact with zeros on both sides, more than a decimal has places. -/
theorem convert_text_whole_least :
    let s := " -0009223372036854775808.00000000000000000000000000000000 "
    let decimal : Decimal := ⟨some '-', "0009223372036854775808".toList, some (List.replicate 32 '0')⟩
    AttributeType.ofNumbers.kind = .number ∧ Text.trim s.toList = decimal.text ∧ decimal.IsWritten ∧
      decimal.value = (-2 ^ 63 : ℤ) ∧
      ∃ n : Int64, (Literal.text s).convert .ofNumbers = .ok (.integer n) ∧ n.toInt = -2 ^ 63 := by
  intro s decimal
  have htext : Text.trim s.toList = decimal.text := by decide
  have hdecimal : decimal.IsWritten :=
    ⟨by simp [decimal], List.all_eq_true.mp (by decide), List.all_eq_true.mp (by decide), by decide⟩
  have hvalue : decimal.value = (-2 ^ 63 : ℤ) := by
    have hwhole : Text.digitsValue decimal.whole = 2 ^ 63 := by decide
    have hplaces : Text.digitsValue decimal.places = 0 := by decide
    rw [Decimal.value, hwhole, hplaces, if_pos (by decide)]
    norm_num
  exact ⟨rfl, htext, hdecimal, hvalue,
    convert_text_whole rfl htext hdecimal hvalue ⟨by decide, by decide⟩⟩

end Literal

end FilterRules
