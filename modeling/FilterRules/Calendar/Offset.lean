import FilterRules.Calendar.Instant

/-!
# Instants with an offset from UTC

For callers who make rules themselves, with dates for values in place of texts. Such a date comes in
the Internet date and time format (RFC 3339), as clocks and other programs write it: a local time
together with its distance from UTC, with any number of digits behind the second. Reading it gives
the instant in UTC. The texts in rules and selections are not read by this module: a date among them
has milliseconds and the zone `Z`, and nothing else.
-/

namespace FilterRules.Instant

open Text (natural?)

/-- The day before a date. -/
def dayBefore (year : Int) (month day : Nat) : Int × Nat × Nat :=
  if 1 < day then (year, month, day - 1)
  else if 1 < month then (year, month - 1, daysInMonth year (month - 1))
  else (year - 1, 12, 31)

/-- The day after a date. -/
def dayAfter (year : Int) (month day : Nat) : Int × Nat × Nat :=
  if day < daysInMonth year month then (year, month, day + 1)
  else if month < 12 then (year, month + 1, 1)
  else (year + 1, 1, 1)

/-- The instant `minutes` later, for less than a day of minutes in either direction. -/
def shift? (instant : Instant) (minutes : Int) : Option Instant :=
  let total := (instant.hour * 60 + instant.minute : Int) + minutes
  let (year, month, day) :=
    if total < 0 then dayBefore instant.year instant.month instant.day
    else if 1440 ≤ total then dayAfter instant.year instant.month instant.day
    else (instant.year, instant.month, instant.day)
  let minuteOfDay := (total % 1440).toNat
  ofFields? year month day (minuteOfDay / 60) (minuteOfDay % 60) instant.second instant.nanosecond

/-- The offset in minutes at the end of a text: `Z`, or a sign, hours and minutes. -/
def offset? : List Char → Option Int
  | ['Z'] | ['z'] => some 0
  | [sign, h₁, h₂, ':', m₁, m₂] => do
    let hours ← natural? [h₁, h₂]
    let minutes ← natural? [m₁, m₂]
    if 23 < hours ∨ 59 < minutes then none
    else if sign = '+' then some (hours * 60 + minutes)
    else if sign = '-' then some (-(hours * 60 + minutes : Int))
    else none
  | _ => none

/-- The nanoseconds that the digits behind a second write; digits beyond the ninth are cut off. -/
def fraction? (digits : List Char) : Option Nat :=
  natural? ((digits ++ List.replicate 9 '0').take 9)

/-- Read a local date and time with its offset. -/
def ofRfc3339? (text : String) : Option Instant :=
  match text.toList with
  | y₁ :: y₂ :: y₃ :: y₄ :: '-' :: m₁ :: m₂ :: '-' :: d₁ :: d₂ :: mark ::
      h₁ :: h₂ :: ':' :: n₁ :: n₂ :: ':' :: s₁ :: s₂ :: rest => do
    if mark ≠ 'T' ∧ mark ≠ 't' ∧ mark ≠ ' ' then none
    let year ← natural? [y₁, y₂, y₃, y₄]
    let month ← natural? [m₁, m₂]
    let day ← natural? [d₁, d₂]
    let hour ← natural? [h₁, h₂]
    let minute ← natural? [n₁, n₂]
    let second ← natural? [s₁, s₂]
    let (digits, rest) := match rest with
      | '.' :: tail => (tail.takeWhile Char.isDigit, tail.dropWhile Char.isDigit)
      | _ => (['0'], rest)
    if digits.isEmpty then none
    let nanosecond ← fraction? digits
    let offset ← offset? rest
    let localTime ← ofFields? year month day hour minute second nanosecond
    localTime.shift? (-offset)
  | _ => none

end FilterRules.Instant
