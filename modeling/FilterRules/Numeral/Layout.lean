import FilterRules.Numeral.Binary64

/-!
# The text of a floating-point number

Many decimals round to one and the same floating-point number. The shortest digits are the fewest
that do, and of these the nearest to the number. Two of them can be equally near, when the number
lies halfway between them; a format says which it takes. The digits are searched for with one digit,
two digits and so on: if any decimal of a given length rounds to the number, then one of the
number's two neighbours of that length does.

A finite number is written with its shortest digits, either positionally or with an exponent of
ten. A layout says which, whether a whole number keeps a fraction of zero, and which digits are
written for a number halfway between two decimals that are equally short.
-/

namespace FilterRules.Numeral

/-- A positive decimal: `0.d₁d₂…dₙ * 10^point`. -/
structure Digits where
  /-- The digits, the first and the last of them not zero. -/
  digits : List Char
  /-- Where the decimal point stands, counted from the front of the digits. -/
  point : Int
deriving DecidableEq

/-- Which of two equally near decimals is taken. -/
inductive Tie where
  /-- The one with an even last digit. -/
  | toEven
  /-- The one farther from zero. -/
  | away
deriving DecidableEq

/-- Whether the lower of two neighbours is taken, when the upper one is its successor and the number
lies halfway between them. -/
def Tie.keeps : Tie → Nat → Bool
  | .toEven, below => below % 2 = 0
  | .away, _ => false

/-- The reals that round to a magnitude, in halves of a unit. -/
structure Interval where
  /-- The midpoint to the next magnitude down. -/
  low : Nat
  /-- The magnitude itself. -/
  value : Nat
  /-- The midpoint to the next magnitude up. -/
  high : Nat
  /-- Whether the midpoints belong to it, as they do when the last bit is even. -/
  closed : Bool

/-- The interval of a positive magnitude pattern. -/
def Interval.of (magnitude : Nat) : Interval :=
  let value := Binary64.units magnitude
  ⟨Binary64.units (magnitude - 1) + value, 2 * value, value + Binary64.units (magnitude + 1),
    magnitude % 2 = 0⟩

/-- Whether a number lies in the interval, both scaled by `scale`. -/
def Interval.holds (interval : Interval) (scale number : Nat) : Bool :=
  if interval.closed then interval.low * scale ≤ number && number ≤ interval.high * scale
  else interval.low * scale < number && number < interval.high * scale

/-- The multiple of `step` that is nearest to the interval's value, if it or the other neighbour
of the value lies in the interval. The interval counts in `scale`ths of what `step` counts in. -/
def Interval.multiple? (interval : Interval) (tie : Tie) (scale step : Nat) : Option Nat :=
  let below := interval.value * scale / step
  let rest := interval.value * scale % step
  match interval.holds scale (below * step), interval.holds scale ((below + 1) * step) with
  | true, true =>
    if 2 * rest < step ∨ (2 * rest = step ∧ tie.keeps below) then some below else some (below + 1)
  | true, false => some below
  | false, true => some (below + 1)
  | false, false => none

/-- Where the decimal point of a positive magnitude stands: the `p` with
`10^(p-1) ≤ value < 10^p`. -/
def pointOf (magnitude : Nat) : Int :=
  ((Nat.toDigits 10 (Binary64.units magnitude * Nat.pow 10 400 / Binary64.unitsOfOne)).length : Int) - 400

/-- The digits of `count` or one more places whose last place is `10^(point - count)`. -/
def Digits.ofCount (count : Nat) (point : Int) (number : Nat) : Digits :=
  let written := Nat.toDigits 10 number
  ⟨(written.reverse.dropWhile (· == '0')).reverse, point + (written.length - count)⟩

/-- The digits of `count` places that round to the magnitude, if there are any. -/
def digitsOf? (tie : Tie) (magnitude count : Nat) : Option Digits :=
  let point := pointOf magnitude
  let last := point - count
  ((Interval.of magnitude).multiple? tie (Nat.pow 10 (-last).toNat)
    (Nat.pow 10 last.toNat * (2 * Binary64.unitsOfOne))).map
    (Digits.ofCount count point)

/-- The first hit from `count` places on; seventeen places always hit. -/
def searchDigits (tie : Tie) (magnitude : Nat) : Nat → Nat → Digits
  | 0, count => (digitsOf? tie magnitude count).getD ⟨['0'], 0⟩
  | more + 1, count =>
    match digitsOf? tie magnitude count with
    | some found => found
    | none => searchDigits tie magnitude more (count + 1)

/-- The shortest digits of a positive finite magnitude. -/
def shortest (tie : Tie) (magnitude : Nat) : Digits := searchDigits tie magnitude 16 1

/-- The decisions of a format for numbers. -/
structure Layout where
  /-- Whether digits with the point at this place are written without an exponent. -/
  positional : Int → Bool
  /-- Whether a whole number written positionally ends in `.0`. -/
  keepsFraction : Bool
  /-- Which of two equally near decimals is written. -/
  tie : Tie

/-- Never an exponent, and no fraction on whole numbers; a number halfway between two decimals is
written away from zero. -/
def Layout.plain : Layout := ⟨fun _ => true, false, .away⟩

/-- An exponent from 10^16 up and below 10^-5; whole numbers end in `.0`, so that they are told
from integers; of two decimals equally near the even one is written. -/
def Layout.json : Layout := ⟨fun point => -5 < point ∧ point ≤ 16, true, .toEven⟩

/-- Digits around a decimal point. -/
def positionalText (keepsFraction : Bool) (number : Digits) : List Char :=
  let count := number.digits.length
  if number.point ≤ 0 then
    '0' :: '.' :: List.replicate (-number.point).toNat '0' ++ number.digits
  else if count ≤ number.point.toNat then
    number.digits ++ List.replicate (number.point.toNat - count) '0' ++
      if keepsFraction then ['.', '0'] else []
  else number.digits.take number.point.toNat ++ '.' :: number.digits.drop number.point.toNat

/-- One digit before the point, the others behind it, and a signed exponent. -/
def exponentText (number : Digits) : List Char :=
  let exponent := number.point - 1
  number.digits.take 1 ++
    (if number.digits.length ≤ 1 then [] else '.' :: number.digits.drop 1) ++
    'e' :: (if exponent < 0 then '-' else '+') :: Nat.toDigits 10 exponent.natAbs

/-- The text of a finite magnitude. -/
def magnitudeText (layout : Layout) (magnitude : Nat) : List Char :=
  if magnitude = 0 then if layout.keepsFraction then ['0', '.', '0'] else ['0']
  else
    let number := shortest layout.tie magnitude
    if layout.positional number.point then positionalText layout.keepsFraction number
    else exponentText number

/-- The text of a number; the ones that are not finite have names. -/
def text (layout : Layout) (x : Binary64) : String :=
  if x.isNaN then "NaN"
  else
    String.ofList ((if x.isNegative then ['-'] else []) ++
      if x.isFinite then magnitudeText layout x.magnitudeBits else ['i', 'n', 'f'])

/-- The text of an integer: its decimal digits, behind a minus sign when it is negative. -/
def integerText (n : Int) : String :=
  String.ofList ((if n < 0 then ['-'] else []) ++ Nat.toDigits 10 n.natAbs)

end FilterRules.Numeral
