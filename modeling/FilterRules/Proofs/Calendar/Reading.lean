import FilterRules.Conversion
import FilterRules.Proofs.Calendar.Instant
import Mathlib.Tactic.IntervalCases

/-!
# Which texts are dates

A date text names a day of the calendar and a time of day in its seven runs of digits. An attribute that
holds dates takes these texts and no others, each as the instant that it names, and writing the instant
gives the text back. Reading and writing are therefore inverse between the date texts and the instants of
the years 0 to 9999 that fall on a whole millisecond; two texts never name one instant.
-/

namespace FilterRules

namespace Instant

open Text (digitsValue AreDigits)

/-- The number of days of a month, by the kinds of months. -/
theorem daysInMonth_eq (year : Int) (month : Nat) : daysInMonth year month =
    if month = 2 then if isLeapYear year then 29 else 28
    else if month ∈ [4, 6, 9, 11] then 30 else if 1 ≤ month ∧ month ≤ 12 then 31 else 0 := by
  by_cases hmonth : 1 ≤ month ∧ month ≤ 12
  · obtain ⟨hfirst, hlast⟩ := hmonth
    interval_cases month <;> rfl
  · unfold daysInMonth
    split <;> simp_all

/-- A day of the proleptic Gregorian calendar, in a year that is not before 0. -/
structure IsDay (year month day : Nat) : Prop where
  /-- There are twelve months. -/
  month_bounds : 1 ≤ month ∧ month ≤ 12
  /-- A month has thirty-one days at most. -/
  day_bounds : 1 ≤ day ∧ day ≤ 31
  /-- April, June, September and November have thirty days. -/
  short : month ∈ [4, 6, 9, 11] → day ≤ 30
  /-- February has twenty-nine days at most. -/
  february : month = 2 → day ≤ 29
  /-- It has the last of them in every fourth year, but of the full centuries in every fourth only. -/
  leap : month = 2 → day = 29 → 4 ∣ year ∧ (100 ∣ year → 400 ∣ year)

/-- A leap year is a fourth year, and a full century only if it is a fourth one. -/
theorem isLeapYear_iff {year : Nat} :
    isLeapYear year = true ↔ 4 ∣ year ∧ (100 ∣ year → 400 ∣ year) := by
  simp only [isLeapYear, Bool.and_eq_true, Bool.or_eq_true, beq_iff_eq, bne_iff_ne, ne_eq]
  omega

/-- The days of a month are those of the calendar. -/
theorem isDay_iff {year month day : Nat} :
    IsDay year month day ↔ 1 ≤ day ∧ day ≤ daysInMonth year month := by
  rw [daysInMonth_eq]
  constructor
  · rintro ⟨hmonth, ⟨hpos, hmax⟩, hshort, hfebruary, hleap⟩
    refine ⟨hpos, ?_⟩
    rw [← isLeapYear_iff] at hleap
    split
    case isTrue htwo =>
      have hle := hfebruary htwo
      split
      case isTrue => exact hle
      case isFalse hcommon =>
        have hne : day ≠ 29 := fun hlast => hcommon (hleap htwo hlast)
        omega
    case isFalse =>
      split
      case isTrue hthirty => exact hshort hthirty
      case isFalse => exact hmax
  · rintro ⟨hpos, hmax⟩
    split at hmax
    case isTrue htwo =>
      subst htwo
      have hle : day ≤ 29 := by split at hmax <;> omega
      refine ⟨by decide, ⟨hpos, by omega⟩, by simp, fun _ => hle, fun _ hlast => ?_⟩
      refine isLeapYear_iff.mp ?_
      by_contra hcommon
      rw [if_neg hcommon] at hmax
      omega
    case isFalse htwo =>
      split at hmax
      case isTrue hthirty =>
        have hmonth : 1 ≤ month ∧ month ≤ 12 := by
          simp only [List.mem_cons, List.not_mem_nil, or_false] at hthirty
          omega
        exact ⟨hmonth, ⟨hpos, by omega⟩, fun _ => hmax, fun h => absurd h htwo, fun h => absurd h htwo⟩
      case isFalse hthirty =>
        split at hmax
        case isTrue hmonth =>
          exact ⟨hmonth, ⟨hpos, hmax⟩, fun h => absurd h hthirty, fun h => absurd h htwo,
            fun h => absurd h htwo⟩
        case isFalse => omega

/-- Parts that name a day of the calendar and a time of day, leap seconds included. -/
structure Parts.AreReal (parts : Parts) : Prop where
  /-- The day is one of the calendar. -/
  day : IsDay (digitsValue parts.year) (digitsValue parts.month) (digitsValue parts.day)
  /-- A day has twenty-four hours. -/
  hour : digitsValue parts.hour ≤ 23
  /-- An hour has sixty minutes. -/
  minute : digitsValue parts.minute ≤ 59
  /-- A minute has sixty seconds, or sixty-one. -/
  second : digitsValue parts.second ≤ 60

/-- Parts of the right lengths write an instant when they name a day of the calendar and a time of day. -/
theorem Parts.HaveForm.exists_write_iff {parts : Parts} (hform : parts.HaveForm) :
    (∃ instant, parts.Write instant) ↔ parts.AreReal := by
  constructor
  · rintro ⟨instant, hwrite⟩
    have hreal := instant.real
    rw [hwrite.year, hwrite.month, hwrite.day, hwrite.hour, hwrite.minute, hwrite.second] at hreal
    exact ⟨isDay_iff.mpr hreal.1, hreal.2.1, hreal.2.2.1, hreal.2.2.2.1⟩
  · rintro ⟨hday, hhour, hminute, hsecond⟩
    have hfraction := hform.millisecond.value_lt
    exact ⟨⟨digitsValue parts.year, digitsValue parts.month, digitsValue parts.day,
      digitsValue parts.hour, digitsValue parts.minute, digitsValue parts.second,
      digitsValue parts.millisecond * 1000000, isDay_iff.mp hday, hhour, hminute, hsecond,
      by omega⟩, ⟨rfl, rfl, rfl, rfl, rfl, rfl, rfl⟩⟩

/-- A text is read as some instant when it has the form of a date and is a real one. -/
theorem exists_ofIso?_iff {text : String} : (∃ instant, ofIso? text = some instant) ↔
    ∃ parts : Parts, text.toList = parts.text ∧ parts.HaveForm ∧ parts.AreReal := by
  simp only [ofIso?_eq_some_iff]
  constructor
  · rintro ⟨instant, parts, htext, hform, hwrite⟩
    exact ⟨parts, htext, hform, hform.exists_write_iff.mp ⟨instant, hwrite⟩⟩
  · rintro ⟨parts, htext, hform, hreal⟩
    obtain ⟨instant, hwrite⟩ := hform.exists_write_iff.mpr hreal
    exact ⟨instant, parts, htext, hform, hwrite⟩

/-- An instant is read from the text that it is written as when its year has four digits and it falls on a
whole millisecond. -/
theorem ofIso?_isoText_iff {instant : Instant} : ofIso? instant.isoText = some instant ↔
    (0 ≤ instant.year ∧ instant.year ≤ 9999) ∧ 1000000 ∣ instant.nanosecond := by
  rw [ofIso?_eq_some_iff]
  constructor
  · rintro ⟨parts, _, hform, hwrite⟩
    have hyear := hform.year.value_lt
    rw [hwrite.year, hwrite.nanosecond]
    exact ⟨by omega, Nat.dvd_mul_left _ _⟩
  · rintro ⟨⟨hmin, hmax⟩, hwhole⟩
    obtain ⟨hday, hhour, hminute, hsecond, hnanosecond⟩ := instant.real
    obtain ⟨year, hyear⟩ := Int.eq_ofNat_of_zero_le hmin
    rw [hyear] at hday
    obtain ⟨hmonth, hday, _, _, _⟩ := isDay_iff.mpr hday
    have htext : yearText instant.year = padded 4 year := by
      rw [yearText, if_neg (by omega), if_neg (by omega), hyear, Int.natAbs_natCast]
    obtain ⟨hform₁, hwrite₁⟩ := areDigits_padded 3 (n := year) (by omega)
    obtain ⟨hform₂, hwrite₂⟩ := areDigits_padded 1 (n := instant.month) (by omega)
    obtain ⟨hform₃, hwrite₃⟩ := areDigits_padded 1 (n := instant.day) (by omega)
    obtain ⟨hform₄, hwrite₄⟩ := areDigits_padded 1 (n := instant.hour) (by omega)
    obtain ⟨hform₅, hwrite₅⟩ := areDigits_padded 1 (n := instant.minute) (by omega)
    obtain ⟨hform₆, hwrite₆⟩ := areDigits_padded 1 (n := instant.second) (by omega)
    obtain ⟨hform₇, hwrite₇⟩ := areDigits_padded 2 (n := instant.nanosecond / 1000000) (by omega)
    refine ⟨instant.parts, toList_isoText instant, ?_, ?_⟩
    · exact ⟨by rwa [parts, htext], hform₂, hform₃, hform₄, hform₅, hform₆, hform₇⟩
    · refine ⟨?_, hwrite₂.symm, hwrite₃.symm, hwrite₄.symm, hwrite₅.symm, hwrite₆.symm, ?_⟩
      · rw [parts, htext, hwrite₁, hyear]
      · rw [parts, hwrite₇, Nat.div_mul_cancel hwhole]

end Instant

namespace Literal

open Instant (Parts)

/-- A text is converted to a date by reading it. -/
theorem convert_text_of_isDate {declared : AttributeType} (h : declared.isDate = true) {s : String}
    {converted : Literal} : (Literal.text s).convert declared = .ok converted ↔
      ∃ instant, Instant.ofIso? s = some instant ∧ converted = .date instant := by
  have hkind : declared.kind = .string := by
    simp only [AttributeType.isDate, Bool.and_eq_true, beq_iff_eq] at h
    exact h.1
  simp only [convert, hkind, h, if_true, date?]
  cases Instant.ofIso? s with
  | none => simp
  | some instant => simp [eq_comm]

/-- An attribute that holds dates takes exactly the texts `YYYY-MM-DDTHH:mm:ss.sssZ` in ASCII digits that
name a day of the calendar and a time of day. What a text is converted to is written as that text, so that
different texts give different dates; and an instant is what its own text is converted to when its year
lies between 0 and 9999 and it falls on a whole millisecond. -/
theorem convert_text_date (declared : AttributeType) (h : declared.isDate = true) :
    (∀ s, (∃ converted, (Literal.text s).convert declared = .ok converted) ↔
      ∃ parts : Parts, s.toList = parts.text ∧ parts.HaveForm ∧ parts.AreReal) ∧
    (∀ s converted, (Literal.text s).convert declared = .ok converted →
      ∃ instant, converted = .date instant ∧ instant.isoText = s) ∧
    (∀ s other converted, (Literal.text s).convert declared = .ok converted →
      (Literal.text other).convert declared = .ok converted → s = other) ∧
    ∀ instant : Instant, (Literal.text instant.isoText).convert declared = .ok (.date instant) ↔
      (0 ≤ instant.year ∧ instant.year ≤ 9999) ∧ 1000000 ∣ instant.nanosecond := by
  have hread (s : String) (converted : Literal) :
      (Literal.text s).convert declared = .ok converted ↔
        ∃ instant, Instant.ofIso? s = some instant ∧ converted = .date instant :=
    convert_text_of_isDate h
  simp only [hread]
  refine ⟨fun s => ?_, ?_, ?_, fun instant => ?_⟩
  · rw [← Instant.exists_ofIso?_iff, exists_comm]
    simp
  · rintro s converted ⟨instant, hinstant, rfl⟩
    exact ⟨instant, rfl, Instant.isoText_of_ofIso? hinstant⟩
  · rintro s other converted ⟨instant, hinstant, rfl⟩ ⟨instant', hother, hsame⟩
    obtain rfl := Literal.date.inj hsame
    rw [← Instant.isoText_of_ofIso? hinstant, Instant.isoText_of_ofIso? hother]
  · rw [← Instant.ofIso?_isoText_iff]
    simp

/-- The last millisecond of a leap second on the leap day of the year 0 is read and written. -/
theorem convert_text_date_leap :
    let s := "0000-02-29T23:59:60.999Z"
    let day : Instant := ⟨0, 2, 29, 23, 59, 60, 999000000, by decide⟩
    AttributeType.ofDates.isDate = true ∧
      (Literal.text s).convert .ofDates = .ok (.date day) ∧ day.isoText = s ∧
      (∃ parts : Parts, s.toList = parts.text ∧ parts.HaveForm ∧ parts.AreReal) ∧
      (Literal.text day.isoText).convert .ofDates = .ok (.date day) := by
  intro s day
  have hdate : AttributeType.ofDates.isDate = true := by decide
  have hread : (Literal.text s).convert .ofDates = .ok (.date day) := by decide
  obtain ⟨hshape, hwritten, _, hinverse⟩ := convert_text_date .ofDates hdate
  obtain ⟨instant, hinstant, htext⟩ := hwritten s _ hread
  obtain rfl := Literal.date.inj hinstant
  exact ⟨hdate, hread, htext, (hshape s).mp ⟨_, hread⟩,
    (hinverse day).mpr ⟨by decide, by decide⟩⟩

end Literal

end FilterRules
