import FilterRules.Json.Basic
import FilterRules.Text.Basic
import FilterRules.Numeral.Reading

/-!
# The tokens of a JSON text

A text is cut into brackets, marks, words, numbers and strings, with the blanks between them left
out. Where no token begins, a broken token ends the list. A number too large for a floating-point
number and a string with half of a surrogate pair are well-formed tokens without a value.
-/

namespace FilterRules.Json

/-- A token. -/
inductive Token where
  /-- An opening square bracket. -/
  | openArray
  /-- A closing square bracket. -/
  | closeArray
  /-- An opening curly bracket. -/
  | openObject
  /-- A closing curly bracket. -/
  | closeObject
  /-- A comma. -/
  | comma
  /-- A colon. -/
  | colon
  /-- The word `null`. -/
  | null
  /-- The word `true` or `false`. -/
  | bool (b : Bool)
  /-- A number, with its value if it has one. -/
  | number (value : Option JsonNumber)
  /-- A string, with its value if it has one. -/
  | text (value : Option String)
  /-- No token. -/
  | broken

namespace Token

/-- A piece of a string: a character, or a UTF-16 code unit written in hexadecimal. -/
inductive Piece where
  /-- A character that stands for itself or is named by a letter. -/
  | plain (c : Char)
  /-- A code unit. -/
  | unit (code : Nat)

/-- The value of a hexadecimal digit. -/
def hexDigit? (c : Char) : Option Nat :=
  if c.isDigit then some (c.toNat - '0'.toNat)
  else if 'a' ≤ c ∧ c ≤ 'f' then some (c.toNat - 'a'.toNat + 10)
  else if 'A' ≤ c ∧ c ≤ 'F' then some (c.toNat - 'A'.toNat + 10)
  else none

/-- The character that a letter behind a backslash names. -/
def named? : Char → Option Char
  | '"' => some '"'
  | '\\' => some '\\'
  | '/' => some '/'
  | 'b' => some '\x08'
  | 'f' => some '\x0c'
  | 'n' => some '\n'
  | 'r' => some '\r'
  | 't' => some '\t'
  | _ => none

/-- The pieces of a string up to its closing quote, and what follows the quote. -/
def quoted : List Char → Option (List Piece × List Char)
  | [] => none
  | '"' :: rest => some ([], rest)
  | '\\' :: 'u' :: a :: b :: c :: d :: rest => do
    let code ← [a, b, c, d].foldlM (fun value digit => (hexDigit? digit).map (16 * value + ·)) 0
    let (pieces, rest) ← quoted rest
    some (.unit code :: pieces, rest)
  | '\\' :: c :: rest => do
    let plain ← named? c
    let (pieces, rest) ← quoted rest
    some (.plain plain :: pieces, rest)
  | c :: rest =>
    if c < ' ' then none
    else do
      let (pieces, rest) ← quoted rest
      some (.plain c :: pieces, rest)

/-- What follows a string is shorter than the string with what follows it. -/
theorem quoted_length {text rest : List Char} {pieces : List Piece}
    (h : quoted text = some (pieces, rest)) : rest.length < text.length := by
  fun_induction quoted text generalizing pieces rest with
  | case1 => simp at h
  | case2 => simp_all
  | case3 a b c d tail ih =>
    simp only [bind, Option.bind_eq_some_iff, Prod.exists] at h
    obtain ⟨_, _, found, after, hq, heq⟩ := h
    simp only [Option.some.injEq, Prod.mk.injEq] at heq
    have := ih hq
    rw [← heq.2]
    simp only [List.length_cons]
    omega
  | case4 c tail _ ih =>
    simp only [bind, Option.bind_eq_some_iff, Prod.exists] at h
    obtain ⟨_, _, found, after, hq, heq⟩ := h
    simp only [Option.some.injEq, Prod.mk.injEq] at heq
    have := ih hq
    rw [← heq.2]
    simp only [List.length_cons]
    omega
  | case5 => simp at h
  | case6 c tail _ _ _ _ ih =>
    simp only [bind, Option.bind_eq_some_iff, Prod.exists] at h
    obtain ⟨found, after, hq, heq⟩ := h
    simp only [Option.some.injEq, Prod.mk.injEq] at heq
    have := ih hq
    rw [← heq.2]
    simp only [List.length_cons]
    omega

/-- The characters of a string, if every leading half of a surrogate pair is followed by a
trailing half and no trailing half stands alone. -/
def characters? : List Piece → Option (List Char)
  | [] => some []
  | .plain c :: rest => (characters? rest).map (c :: ·)
  | .unit lead :: rest =>
    if 0xD800 ≤ lead ∧ lead < 0xDC00 then
      match rest with
      | .unit trail :: rest =>
        if 0xDC00 ≤ trail ∧ trail < 0xE000 then
          (characters? rest).map
            (Char.ofNat (0x10000 + (lead - 0xD800) * 0x400 + (trail - 0xDC00)) :: ·)
        else none
      | _ => none
    else if 0xDC00 ≤ lead ∧ lead < 0xE000 then none
    else (characters? rest).map (Char.ofNat lead :: ·)

/-- Digits, one at least, and what follows them. -/
def takeDigits (text : List Char) : Option (List Char × List Char) :=
  let digits := text.takeWhile Char.isDigit
  if digits.isEmpty then none else some (digits, text.dropWhile Char.isDigit)

/-- The whole part of a number from its first digit on: a zero alone, or digits that do not start
with one. -/
def takeWhole (first : Char) (rest : List Char) : Option (List Char × List Char) :=
  if first = '0' then if (takeDigits rest).isSome then none else some (['0'], rest)
  else if first.isDigit then
    some (first :: rest.takeWhile Char.isDigit, rest.dropWhile Char.isDigit)
  else none

/-- The digits behind a point, if there is a point. -/
def takeFraction : List Char → Option (List Char × List Char)
  | '.' :: rest => takeDigits rest
  | rest => some ([], rest)

/-- The exponent, if there is one. -/
def takeExponent : List Char → Option (Option Int × List Char)
  | [] => some (none, [])
  | c :: rest =>
    if c = 'e' ∨ c = 'E' then
      let (negative, rest) := Numeral.takeSign rest
      (takeDigits rest).map fun (digits, rest) =>
        (some (if negative then -Text.digitsValue digits else Text.digitsValue digits), rest)
    else some (none, c :: rest)

/-- The value of a number. Without a point and an exponent it is whole if it fits into 64 bits;
the zero with a minus sign is not whole, since no whole number has its sign. -/
def numberValue? (negative : Bool) (whole fraction : List Char) (exponent : Option Int) :
    Option JsonNumber :=
  let real := Binary64.ofDecimal negative (Text.digitsValue (whole ++ fraction))
    (exponent.getD 0 - fraction.length)
  if fraction.isEmpty && exponent.isNone then
    let n := Text.digitsValue whole
    let exact :=
      if negative then if n = 0 ∨ Binary64.signBit < n then none else JsonNumber.whole? (-n)
      else JsonNumber.whole? n
    exact.orElse fun _ => JsonNumber.real? real
  else JsonNumber.real? real

/-- A number from its first digit on, and what follows it. -/
def number? (negative : Bool) (first : Char) (rest : List Char) : Option (Token × List Char) := do
  let (whole, rest) ← takeWhole first rest
  let (fraction, rest) ← takeFraction rest
  let (exponent, rest) ← takeExponent rest
  some (.number (numberValue? negative whole fraction exponent), rest)

/-- What follows digits is no longer than the digits with what follows them. -/
theorem takeDigits_length {text digits rest : List Char}
    (h : takeDigits text = some (digits, rest)) : rest.length ≤ text.length := by
  simp only [takeDigits] at h
  split at h
  · simp at h
  · simp only [Option.some.injEq, Prod.mk.injEq] at h
    rw [← h.2]
    exact (List.dropWhile_sublist _).length_le

/-- What follows a number is no longer than what follows its first digit. -/
theorem number?_length {negative : Bool} {first : Char} {text rest : List Char} {token : Token}
    (h : number? negative first text = some (token, rest)) : rest.length ≤ text.length := by
  simp only [number?, bind, Option.bind_eq_some_iff, Prod.exists] at h
  obtain ⟨whole, rest₁, h₁, fraction, rest₂, h₂, exponent, rest₃, h₃, heq⟩ := h
  simp only [Option.some.injEq, Prod.mk.injEq] at heq
  have l₁ : rest₁.length ≤ text.length := by
    unfold takeWhole at h₁
    split at h₁
    · split at h₁
      · simp at h₁
      · simp only [Option.some.injEq, Prod.mk.injEq] at h₁
        simp [← h₁.2]
    · split at h₁
      · simp only [Option.some.injEq, Prod.mk.injEq] at h₁
        rw [← h₁.2]
        exact (List.dropWhile_sublist _).length_le
      · simp at h₁
  have l₂ : rest₂.length ≤ rest₁.length := by
    unfold takeFraction at h₂
    split at h₂
    · have := takeDigits_length h₂
      simp only [List.length_cons]
      omega
    · simp only [Option.some.injEq, Prod.mk.injEq] at h₂
      simp [← h₂.2]
  have l₃ : rest₃.length ≤ rest₂.length := by
    unfold takeExponent at h₃
    split at h₃
    · simp only [Option.some.injEq, Prod.mk.injEq] at h₃
      simp [← h₃.2]
    · rename_i c tail
      split at h₃
      · simp only [Option.map_eq_some_iff, Prod.mk.injEq, Prod.exists] at h₃
        obtain ⟨digits, after, hd, _, rfl⟩ := h₃
        have := takeDigits_length hd
        have hs : (Numeral.takeSign tail).2.length ≤ tail.length := by
          unfold Numeral.takeSign
          split <;> simp
        simp only [List.length_cons]
        omega
      · simp only [Option.some.injEq, Prod.mk.injEq] at h₃
        simp [← h₃.2]
  rw [← heq.2]
  omega

/-- A word, if the text starts with it. -/
def word? (rest : List Char) (letters : List Char) (token : Token) : Option (Token × List Char) :=
  if letters.isPrefixOf rest then some (token, rest.drop letters.length) else none

/-- What follows a word is no longer than the text that the word was looked for in. -/
theorem word?_length {rest letters left : List Char} {token found : Token}
    (h : word? rest letters token = some (found, left)) : left.length ≤ rest.length := by
  unfold word? at h
  split at h
  · simp only [Option.some.injEq, Prod.mk.injEq] at h
    simp only [← h.2, List.length_drop]
    omega
  · simp at h

/-- The token that starts with a character, and what follows it. -/
def next? (c : Char) (rest : List Char) : Option (Token × List Char) :=
  match c with
  | '[' => some (.openArray, rest)
  | ']' => some (.closeArray, rest)
  | '\x7b' => some (.openObject, rest)
  | '\x7d' => some (.closeObject, rest)
  | ',' => some (.comma, rest)
  | ':' => some (.colon, rest)
  | 'n' => word? rest ['u', 'l', 'l'] .null
  | 't' => word? rest ['r', 'u', 'e'] (.bool true)
  | 'f' => word? rest ['a', 'l', 's', 'e'] (.bool false)
  | '"' => (quoted rest).map fun (pieces, rest) =>
      (.text ((characters? pieces).map String.ofList), rest)
  | '-' =>
    match rest with
    | [] => none
    | first :: rest => number? true first rest
  | _ => number? false c rest

/-- What follows a token is no longer than what follows its first character. -/
theorem next?_length {c : Char} {rest left : List Char} {token : Token}
    (h : next? c rest = some (token, left)) : left.length ≤ rest.length := by
  unfold next? at h
  split at h
  case h_10 =>
    simp only [Option.map_eq_some_iff, Prod.mk.injEq, Prod.exists] at h
    obtain ⟨pieces, after, hq, _, rfl⟩ := h
    have := quoted_length hq
    omega
  case h_11 =>
    split at h
    · simp at h
    · have := number?_length h
      simp only [List.length_cons]
      omega
  case h_12 => exact number?_length h
  case h_7 => exact word?_length h
  case h_8 => exact word?_length h
  case h_9 => exact word?_length h
  all_goals
    simp only [Option.some.injEq, Prod.mk.injEq] at h
    simp [← h.2]

/-- The blanks of JSON, which are fewer than those of Unicode. -/
def isGap (c : Char) : Bool := c == ' ' || c == '\t' || c == '\n' || c == '\r'

/-- The tokens of a text; nothing follows a broken token. -/
def ofText : List Char → List Token
  | [] => []
  | c :: rest =>
    if isGap c then ofText rest
    else
      match _h : next? c rest with
      | some (token, left) => token :: ofText left
      | none => [.broken]
termination_by text => text.length
decreasing_by
  all_goals simp only [List.length_cons]
  · omega
  · have := next?_length _h
    omega

end Token

end FilterRules.Json
