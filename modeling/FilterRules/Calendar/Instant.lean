import FilterRules.Text.Basic

/-!
# Instants

An instant is a date of the proleptic Gregorian calendar with a time of day in UTC. Its text form
has milliseconds and the zone `Z`. A minute may have a second 60, for the leap seconds that UTC
inserts; it is kept as it was read.
-/

namespace FilterRules

/-- Whether a year has a 29th of February. -/
def isLeapYear (year : Int) : Bool := year % 4 == 0 && (year % 100 != 0 || year % 400 == 0)

/-- The number of days of a month; there is no month but the twelve. -/
def daysInMonth (year : Int) (month : Nat) : Nat :=
  match month with
  | 1 | 3 | 5 | 7 | 8 | 10 | 12 => 31
  | 4 | 6 | 9 | 11 => 30
  | 2 => if isLeapYear year then 29 else 28
  | _ => 0

/-- A date and a time of day in UTC. -/
structure Instant where
  /-- The year; the year before 1 is 0. -/
  year : Int
  /-- The month, from 1. -/
  month : Nat
  /-- The day of the month, from 1. -/
  day : Nat
  /-- The hour. -/
  hour : Nat
  /-- The minute. -/
  minute : Nat
  /-- The second, up to 60. -/
  second : Nat
  /-- The part of a second that has passed. -/
  nanosecond : Nat
  /-- The fields name a day that exists and a time of day. -/
  real : (1 ≤ day ∧ day ≤ daysInMonth year month) ∧
    hour ≤ 23 ∧ minute ≤ 59 ∧ second ≤ 60 ∧ nanosecond < 1000000000
deriving DecidableEq

namespace Instant

open Text (natural?)

/-- The instant of given fields, if they name one. -/
def ofFields? (year : Int) (month day hour minute second nanosecond : Nat) : Option Instant :=
  if h : (1 ≤ day ∧ day ≤ daysInMonth year month) ∧
      hour ≤ 23 ∧ minute ≤ 59 ∧ second ≤ 60 ∧ nanosecond < 1000000000 then
    some ⟨year, month, day, hour, minute, second, nanosecond, h⟩
  else none

/-- Read the form `YYYY-MM-DDTHH:mm:ss.sssZ`. -/
def ofIso? (text : String) : Option Instant :=
  match text.toList with
  | [y₁, y₂, y₃, y₄, '-', m₁, m₂, '-', d₁, d₂, 'T', h₁, h₂, ':', n₁, n₂, ':', s₁, s₂, '.',
      f₁, f₂, f₃, 'Z'] => do
    let year ← natural? [y₁, y₂, y₃, y₄]
    let month ← natural? [m₁, m₂]
    let day ← natural? [d₁, d₂]
    let hour ← natural? [h₁, h₂]
    let minute ← natural? [n₁, n₂]
    let second ← natural? [s₁, s₂]
    let millisecond ← natural? [f₁, f₂, f₃]
    ofFields? year month day hour minute second (millisecond * 1000000)
  | _ => none

/-- A number with zeros in front up to a width. -/
def padded (width n : Nat) : List Char :=
  let digits := Nat.toDigits 10 n
  List.replicate (width - digits.length) '0' ++ digits

/-- A year in four digits; years before 0 or after 9999 carry a sign. -/
def yearText (year : Int) : List Char :=
  if year < 0 then '-' :: padded 4 year.natAbs
  else if 9999 < year then '+' :: padded 4 year.natAbs
  else padded 4 year.natAbs

/-- Write the form `YYYY-MM-DDTHH:mm:ss.sssZ`; what is left of a millisecond is cut off. -/
def isoText (instant : Instant) : String :=
  String.ofList <|
    yearText instant.year ++ '-' :: padded 2 instant.month ++ '-' :: padded 2 instant.day ++
      'T' :: padded 2 instant.hour ++ ':' :: padded 2 instant.minute ++
      ':' :: padded 2 instant.second ++ '.' :: padded 3 (instant.nanosecond / 1000000) ++ ['Z']

end Instant

end FilterRules
