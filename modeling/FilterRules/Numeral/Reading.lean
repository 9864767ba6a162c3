import FilterRules.Numeral.Binary64
import FilterRules.Text.Basic

/-!
# Numbers from text

A text is read as a scaled decimal first, so that whole numbers stay exact integers, and as a
floating-point number when it does not fit there. Infinite numbers and words are no numbers.

A scaled decimal is a mantissa below 2^96 with at most twenty-eight decimal places. Text is read
digit by digit; a digit that no longer fits behind the point rounds the mantissa, half up, and
ends the reading. Underscores between digits mean nothing, but one behind the last possible place
of a small mantissa ends the reading like a digit 0. A whole value is exact. The conversion to a
floating-point number goes through the whole and the fractional part, with a rounding at each step,
and therefore need not give the number nearest to the decimal.
-/

namespace FilterRules.Numeral

/-- A decimal `mantissa / 10^scale` with a sign. -/
structure Scaled where
  /-- Whether the text began with a minus sign. -/
  negative : Bool
  /-- All digits as one number, below `Scaled.limit`. -/
  mantissa : Nat
  /-- The number of decimal places, at most `Scaled.maxScale`. -/
  scale : Nat
deriving DecidableEq

/-- A sign, and what follows it. -/
def takeSign : List Char → Bool × List Char
  | '-' :: rest => (true, rest)
  | '+' :: rest => (false, rest)
  | text => (false, text)

namespace Scaled

/-- Mantissas stay below this bound. -/
def limit : Nat := Nat.pow 2 96

/-- The greatest number of decimal places. -/
def maxScale : Nat := 28

/-- A mantissa below this bound takes another digit within 64 bits, with room to spare. -/
def wordLimit : Nat := (Nat.pow 2 64 - 1) / 10 - 255

/-- The mantissa and scale after the first digit that did not fit: half rounds up, and a mantissa
that reaches the bound gives up a place. -/
def roundOff (mantissa scale digit : Nat) : Option (Nat × Nat) :=
  if digit < 5 then some (mantissa, scale)
  else if mantissa + 1 < limit then some (mantissa + 1, scale)
  else if scale = 0 then none
  else some ((mantissa + 5) / 10, scale - 1)

/-- Whether all digits of a mantissa with the greatest number of places were read within 64 bits,
the last of them taken in without looking at the bound. -/
def readInWord (mantissa : Nat) : Bool := mantissa / 10 < wordLimit

/-- The mantissa and scale after the first digit that did not fit, if only digits and underscores
follow it. -/
def roundOffBefore (mantissa scale digit : Nat) (rest : List Char) : Option (Nat × Nat) :=
  if rest.all fun left => left.isDigit || left == '_' then roundOff mantissa scale digit else none

/-- Read digits with at most one point, from a mantissa and scale reached so far. An underscore
may stand anywhere behind the first digit and means nothing, unless all places are taken and the
mantissa was read within 64 bits: there it stands for a digit 0 that did not fit. -/
def readDigits (pointed seen : Bool) (mantissa scale : Nat) : List Char → Option (Nat × Nat)
  | [] => if seen then some (mantissa, scale) else none
  | c :: rest =>
    match Text.digit? c with
    | some digit =>
      let next := 10 * mantissa + digit
      if pointed then
        if scale = maxScale ∨ limit ≤ next then roundOffBefore mantissa scale digit rest
        else readDigits true true next (scale + 1) rest
      else if limit ≤ next then none
      else readDigits false true next scale rest
    | none =>
      if c = '.' then if pointed then none else readDigits true seen mantissa scale rest
      else if c = '_' then
        if !seen then none
        else if scale = maxScale && readInWord mantissa then roundOffBefore mantissa scale 0 rest
        else readDigits pointed seen mantissa scale rest
      else none

/-- Read a decimal without an exponent. -/
def readPlain (text : List Char) : Option Scaled :=
  let (negative, rest) := takeSign text
  (readDigits false false 0 0 rest).map fun (mantissa, scale) => ⟨negative, mantissa, scale⟩

/-- Read an exponent: a minus sign or none, then a natural number below 2^32 that may have a plus
sign of its own. -/
def readExponent (text : List Char) : Option (Bool × Nat) :=
  let (negative, rest) := match text with
    | '-' :: rest => (true, rest)
    | _ => (false, text)
  let digits := match rest with
    | '+' :: digits => digits
    | _ => rest
  match Text.natural? digits with
  | some exponent => if exponent < Nat.pow 2 32 then some (negative, exponent) else none
  | none => none

/-- A decimal divided by `10^exponent`. Places beyond the last possible one are dropped, and the
first dropped digit rounds half up. -/
def lower (number : Scaled) (exponent : Nat) : Option Scaled :=
  if maxScale < exponent then none
  else if number.scale + exponent ≤ maxScale then
    some { number with scale := number.scale + exponent }
  else
    let dropped := number.scale + exponent - maxScale
    let up := if 5 ≤ number.mantissa / Nat.pow 10 (dropped - 1) % 10 then 1 else 0
    some { number with mantissa := number.mantissa / Nat.pow 10 dropped + up, scale := maxScale }

/-- A decimal multiplied by `10^exponent`, if the result still fits. -/
def raise (number : Scaled) (exponent : Nat) : Option Scaled :=
  if exponent ≤ number.scale then some { number with scale := number.scale - exponent }
  else if maxScale < exponent then none
  else
    let mantissa := number.mantissa * Nat.pow 10 (exponent - number.scale)
    if mantissa < limit then some { number with mantissa := mantissa, scale := 0 } else none

/-- Read a decimal with an exponent of ten behind an `e`. -/
def readScientific (text : List Char) : Option Scaled :=
  let base := text.takeWhile fun c => c != 'e' && c != 'E'
  match text.dropWhile fun c => c != 'e' && c != 'E' with
  | [] => none
  | _ :: exponentText => do
    let number ← readPlain base
    let (negative, exponent) ← readExponent exponentText
    if negative then number.lower exponent else number.raise exponent

/-- Read a decimal in either form. -/
def read? (text : List Char) : Option Scaled := (readPlain text).orElse fun _ => readScientific text

/-- The value, if it is whole. -/
def whole? (number : Scaled) : Option Int :=
  if number.mantissa % Nat.pow 10 number.scale = 0 then
    let magnitude := number.mantissa / Nat.pow 10 number.scale
    some (if number.negative then -magnitude else magnitude)
  else none

/-- The units of the magnitude nearest to a natural number. -/
def unitsOfNat (n : Nat) : Nat := Binary64.units (Binary64.nearest n 1)

/-- The units of a rounded quotient of magnitudes in units. -/
def quotient (left right : Nat) : Nat := Binary64.units (Binary64.nearest left right)

/-- The units of a rounded sum of magnitudes in units. -/
def sum (left right : Nat) : Nat := Binary64.units (Binary64.nearest (left + right) Binary64.unitsOfOne)

/-- The units of a rounded product of magnitudes in units. -/
def product (left right : Nat) : Nat := Binary64.units (Binary64.nearest (left * right) (Nat.pow 2 2148))

/-- A power by repeated squaring: `result * base^exponent`, rounded at each product. -/
def power (base result exponent : Nat) : Nat :=
  let result := if exponent % 2 = 1 then product result base else result
  if exponent < 2 then result else power (product base base) result (exponent / 2)
termination_by exponent
decreasing_by omega

/-- The magnitude in units: whole and fractional part are rounded apart and added, and the sum is
rounded once more to the decimal places of the number. -/
def magnitude (number : Scaled) : Nat :=
  let unit := Nat.pow 10 number.scale
  let wholePart := unitsOfNat (number.mantissa / unit)
  let fraction := quotient (unitsOfNat (number.mantissa % unit)) (unitsOfNat unit)
  if number.scale = 0 ∨ fraction = 0 then wholePart
  else
    let places := power (unitsOfNat 10) (unitsOfNat 1) number.scale
    let shifted := product (sum wholePart fraction) places
    quotient (unitsOfNat ((2 * shifted + Binary64.unitsOfOne) / (2 * Binary64.unitsOfOne))) places

/-- The floating-point number of a decimal. -/
def toBinary64 (number : Scaled) : Binary64 :=
  Binary64.ofRatio number.negative number.magnitude Binary64.unitsOfOne

end Scaled

/-- A number with its kind. -/
inductive Number where
  /-- A whole number of 64 bits. -/
  | integer (n : Int64)
  /-- Any other number. -/
  | real (x : Binary64)
deriving DecidableEq

/-- A whole number, if it fits into 64 bits with a sign. -/
def int64? (n : Int) : Option Int64 :=
  if -0x8000000000000000 ≤ n ∧ n < 0x8000000000000000 then some (Int64.ofInt n) else none

/-- The exponent behind an `e`: a sign or none, and digits. No text stands for the exponent 0. -/
def realExponent? : List Char → Option Int
  | [] => some 0
  | c :: rest =>
    if c = 'e' ∨ c = 'E' then
      let (negative, digits) := takeSign rest
      (Text.natural? digits).map fun exponent => if negative then -exponent else exponent
    else none

/-- The finite floating-point number nearest to the decimal that a text writes: a sign or none,
digits with at most one point among them, and perhaps an exponent. -/
def real? (text : List Char) : Option Binary64 := do
  let (negative, rest) := takeSign text
  let whole := rest.takeWhile Char.isDigit
  let rest := rest.dropWhile Char.isDigit
  let (fraction, rest) := match rest with
    | '.' :: rest => (rest.takeWhile Char.isDigit, rest.dropWhile Char.isDigit)
    | _ => ([], rest)
  if whole.isEmpty && fraction.isEmpty then none
  let exponent ← realExponent? rest
  let number := Binary64.ofDecimal negative (Text.digitsValue (whole ++ fraction))
    (exponent - fraction.length)
  if number.isFinite then some number else none

/-- The kind and value of a scaled decimal: an integer when it is whole and fits. -/
def Scaled.number (decimal : Scaled) : Number :=
  match decimal.whole?.bind int64? with
  | some n => .integer n
  | none => .real decimal.toBinary64

/-- The number that a text writes. -/
def number? (text : List Char) : Option Number :=
  match Scaled.read? text with
  | some decimal => some decimal.number
  | none => (real? text).map .real

end FilterRules.Numeral
