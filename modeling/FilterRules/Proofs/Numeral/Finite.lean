import FilterRules.Numeral.Reading
import FilterRules.Proofs.Numeral.Rounding

/-!
# Numbers from text are finite

A scaled decimal has a mantissa below 2^96 and at most twenty-eight places, however it was written, so
that each rounding on the way to a floating-point number stays in the middle of the range. The number
that a text writes is therefore an integer or finite.
-/

namespace FilterRules.Numeral

open Binary64 (places unitsOfOne unitsOfOne_eq unitsOfOne_pos)

namespace Scaled

/-- The bounds that reading keeps. -/
structure Fits (number : Scaled) : Prop where
  /-- The mantissa is below its bound. -/
  mantissa : number.mantissa < limit
  /-- The number of places is at most the greatest one. -/
  scale : number.scale ≤ maxScale

/-- Rounding off a mantissa keeps it in its bounds. -/
theorem fits_of_roundOff {mantissa scale digit : Nat} {result : Nat × Nat}
    (hmantissa : mantissa < limit) (hscale : scale ≤ maxScale)
    (h : roundOff mantissa scale digit = some result) (negative : Bool) :
    Fits ⟨negative, result.1, result.2⟩ := by
  rw [roundOff] at h
  split at h
  case isTrue =>
    obtain rfl := Option.some.inj h
    exact ⟨hmantissa, hscale⟩
  case isFalse =>
    split at h
    case isTrue hnext =>
      obtain rfl := Option.some.inj h
      exact ⟨hnext, hscale⟩
    case isFalse =>
      split at h
      case isTrue => simp at h
      case isFalse =>
        have hlimit : 5 < limit := by decide
        obtain rfl := Option.some.inj h
        exact ⟨by simp only; omega, by simp only; omega⟩

/-- Rounding off before the rest of a text keeps a mantissa in its bounds. -/
theorem fits_of_roundOffBefore {mantissa scale digit : Nat} {rest : List Char}
    {result : Nat × Nat} (hmantissa : mantissa < limit) (hscale : scale ≤ maxScale)
    (h : roundOffBefore mantissa scale digit rest = some result) (negative : Bool) :
    Fits ⟨negative, result.1, result.2⟩ := by
  rw [roundOffBefore] at h
  split at h
  case isTrue => exact fits_of_roundOff hmantissa hscale h negative
  case isFalse => simp at h

/-- Reading digits keeps mantissa and places in their bounds. -/
theorem fits_of_readDigits {pointed seen : Bool} {mantissa scale : Nat} {text : List Char}
    {result : Nat × Nat} (hmantissa : mantissa < limit) (hscale : scale ≤ maxScale)
    (h : readDigits pointed seen mantissa scale text = some result) (negative : Bool) :
    Fits ⟨negative, result.1, result.2⟩ := by
  induction text generalizing pointed seen mantissa scale with
  | nil =>
    rw [readDigits] at h
    split at h
    case isTrue =>
      obtain rfl := Option.some.inj h
      exact ⟨hmantissa, hscale⟩
    case isFalse => simp at h
  | cons c rest ih =>
    rw [readDigits] at h
    cases hdigit : Text.digit? c with
    | some digit =>
      simp only [hdigit] at h
      split at h
      case isTrue =>
        split at h
        case isTrue => exact fits_of_roundOffBefore hmantissa hscale h negative
        case isFalse hroom => exact ih (by omega) (by omega) h
      case isFalse =>
        split at h
        case isTrue => simp at h
        case isFalse hroom => exact ih (by omega) hscale h
    | none =>
      simp only [hdigit] at h
      split at h
      case isTrue =>
        split at h
        case isTrue => simp at h
        case isFalse => exact ih hmantissa hscale h
      case isFalse =>
        split at h
        case isFalse => simp at h
        case isTrue =>
          split at h
          case isTrue => simp at h
          case isFalse =>
            split at h
            case isTrue => exact fits_of_roundOffBefore hmantissa hscale h negative
            case isFalse => exact ih hmantissa hscale h

/-- A decimal read without an exponent is in bounds. -/
theorem fits_of_readPlain {text : List Char} {number : Scaled}
    (h : readPlain text = some number) : number.Fits := by
  obtain ⟨result, hresult, rfl⟩ := Option.map_eq_some_iff.mp h
  exact fits_of_readDigits (by decide) (by decide) hresult _

/-- Division by a power of ten keeps a decimal in bounds. -/
theorem Fits.lower {number result : Scaled} {exponent : Nat} (hfits : number.Fits)
    (h : number.lower exponent = some result) : result.Fits := by
  obtain ⟨hmantissa, hscale⟩ := hfits
  rw [Scaled.lower] at h
  split at h
  case isTrue => simp at h
  case isFalse =>
    split at h
    case isTrue hroom =>
      obtain rfl := Option.some.inj h
      exact ⟨hmantissa, hroom⟩
    case isFalse hroom =>
      obtain rfl := Option.some.inj h
      refine ⟨?_, le_rfl⟩
      have hten : Nat.pow 10 1 ≤ Nat.pow 10 (number.scale + exponent - maxScale) :=
        Nat.pow_le_pow_right (by decide) (by omega)
      have hdiv : number.mantissa / Nat.pow 10 (number.scale + exponent - maxScale) ≤
          number.mantissa / 10 := Nat.div_le_div_left hten (by decide)
      have hlimit : 2 < limit := by decide
      simp only
      split
      · omega
      · omega

/-- Multiplication by a power of ten keeps a decimal in bounds. -/
theorem Fits.raise {number result : Scaled} {exponent : Nat} (hfits : number.Fits)
    (h : number.raise exponent = some result) : result.Fits := by
  obtain ⟨hmantissa, hscale⟩ := hfits
  rw [Scaled.raise] at h
  split at h
  case isTrue =>
    obtain rfl := Option.some.inj h
    exact ⟨hmantissa, (Nat.sub_le _ _).trans hscale⟩
  case isFalse =>
    split at h
    case isTrue => simp at h
    case isFalse =>
      simp only at h
      split at h
      case isTrue hroom =>
        obtain rfl := Option.some.inj h
        exact ⟨hroom, Nat.zero_le _⟩
      case isFalse => simp at h

/-- A decimal that was read is in bounds. -/
theorem fits_of_read? {text : List Char} {number : Scaled} (h : read? text = some number) :
    number.Fits := by
  rw [read?] at h
  cases hplain : readPlain text with
  | some plain =>
    rw [hplain] at h
    obtain rfl : plain = number := Option.some.inj h
    exact fits_of_readPlain hplain
  | none =>
    rw [hplain, Option.orElse_none, readScientific] at h
    split at h
    · simp at h
    · obtain ⟨base, hbase, h⟩ := Option.bind_eq_some_iff.mp h
      obtain ⟨⟨negative, exponent⟩, _, h⟩ := Option.bind_eq_some_iff.mp h
      have hfits := fits_of_readPlain hbase
      cases negative with
      | true => exact hfits.lower h
      | false => exact hfits.raise h

/-- A magnitude, in units, that is below a power of two. -/
def Below (bits magnitude : Nat) : Prop := magnitude < 2 ^ (places + bits)

/-- A magnitude below a power of two is below the larger ones. -/
theorem Below.mono {bits more magnitude : Nat} (h : Below bits magnitude) (hle : bits ≤ more) :
    Below more magnitude :=
  lt_of_lt_of_le h (Nat.pow_le_pow_right (by decide) (Nat.add_le_add_left hle _))

/-- Rounding adds less than two bits to the length of a ratio in units. -/
theorem below_nearest {numerator denominator bits : Nat}
    (h : Below bits (numerator * unitsOfOne / denominator)) :
    Below (bits + 2) (Binary64.units (Binary64.nearest numerator denominator)) := by
  have hplaces : 53 ≤ places + bits := (by decide : 53 ≤ places).trans (Nat.le_add_right _ _)
  exact Binary64.units_nearest_lt hplaces h

/-- A natural number is hardly longer as a magnitude. -/
theorem unitsOfNat_below {n bits : Nat} (h : n < 2 ^ bits) : Below (bits + 2) (unitsOfNat n) := by
  refine below_nearest ?_
  rw [Below, Nat.div_one, pow_add, unitsOfOne_eq, Nat.mul_comm]
  exact Nat.mul_lt_mul_of_pos_left h (by positivity)

/-- A positive number is at least one as a magnitude. -/
theorem unitsOfOne_le_unitsOfNat {n : Nat} (h : 0 < n) : unitsOfOne ≤ unitsOfNat n :=
  Binary64.unitsOfOne_le_units_nearest Nat.one_pos h

/-- A quotient by at least one is hardly longer than what is divided. -/
theorem quotient_below {left right bits : Nat} (hright : unitsOfOne ≤ right)
    (hleft : Below bits left) : Below (bits + 2) (quotient left right) := by
  refine below_nearest (lt_of_le_of_lt ?_ hleft)
  refine Nat.div_le_of_le_mul ?_
  rw [Nat.mul_comm right]
  exact Nat.mul_le_mul_left _ hright

/-- A sum is hardly longer than what is added. -/
theorem sum_below {left right bits : Nat} (hleft : Below bits left) (hright : Below bits right) :
    Below (bits + 1 + 2) (sum left right) := by
  refine below_nearest ?_
  rw [Below] at hleft hright ⊢
  rw [Nat.mul_div_cancel _ unitsOfOne_pos, ← Nat.add_assoc, pow_succ]
  omega

/-- The units of a product of units. -/
theorem unitsOfProduct_eq : Nat.pow 2 2148 = unitsOfOne * unitsOfOne := by decide +kernel

/-- A product is hardly longer than its factors together. -/
theorem product_below {left right first second : Nat} (hleft : Below first left)
    (hright : Below second right) : Below (first + second + 2) (product left right) := by
  rw [product, unitsOfProduct_eq]
  refine below_nearest ?_
  rw [Below, Nat.mul_div_mul_right _ _ unitsOfOne_pos, Nat.div_lt_iff_lt_mul unitsOfOne_pos]
  calc left * right < 2 ^ (places + first) * 2 ^ (places + second) :=
        Nat.mul_lt_mul'' hleft hright
    _ = 2 ^ (places + (first + second)) * unitsOfOne := by
        rw [unitsOfOne_eq, ← pow_add, ← pow_add]
        congr 1
        omega

/-- A product of factors of at least one is at least one. -/
theorem unitsOfOne_le_product {left right : Nat} (hleft : unitsOfOne ≤ left)
    (hright : unitsOfOne ≤ right) : unitsOfOne ≤ product left right := by
  rw [product, unitsOfProduct_eq]
  exact Binary64.unitsOfOne_le_units_nearest (Nat.mul_pos unitsOfOne_pos unitsOfOne_pos)
    (Nat.mul_le_mul hleft hright)

/-- The factor for the last bit of an exponent. -/
theorem lastFactor_bounds {base result first second : Nat} (exponent : Nat)
    (hbase : unitsOfOne ≤ base ∧ Below first base)
    (hresult : unitsOfOne ≤ result ∧ Below second result) :
    unitsOfOne ≤ (if exponent % 2 = 1 then product result base else result) ∧
      Below (second + (first + 2) * (exponent % 2))
        (if exponent % 2 = 1 then product result base else result) := by
  split
  case isTrue hodd =>
    have hproduct : Below (second + first + 2) (product result base) :=
      product_below hresult.2 hbase.2
    exact ⟨unitsOfOne_le_product hresult.1 hbase.1, hproduct.mono (by rw [hodd]; omega)⟩
  case isFalse =>
    exact ⟨hresult.1, hresult.2.mono (Nat.le_add_right _ _)⟩

/-- A power of at least one is at least one, and its length grows with the exponent. -/
theorem power_bounds {base result exponent first second : Nat}
    (hbase : unitsOfOne ≤ base ∧ Below first base)
    (hresult : unitsOfOne ≤ result ∧ Below second result) :
    unitsOfOne ≤ power base result exponent ∧
      Below (second + (first + 2) * exponent) (power base result exponent) := by
  induction exponent using Nat.strong_induction_on generalizing base result first second with
  | _ exponent ih =>
    have hnext := lastFactor_bounds exponent hbase hresult
    rw [power]
    split
    case isTrue hsmall =>
      rwa [Nat.mod_eq_of_lt hsmall] at hnext ⊢
    case isFalse hlarge =>
      have hsquare : unitsOfOne ≤ product base base ∧ Below (first + first + 2) (product base base) :=
        ⟨unitsOfOne_le_product hbase.1 hbase.1, product_below hbase.2 hbase.2⟩
      obtain ⟨hle, hbelow⟩ := ih (exponent / 2) (by omega) hsquare hnext
      have hdouble : (first + first + 2 + 2) * (exponent / 2) =
          (first + 2) * (2 * (exponent / 2)) := by
        rw [← Nat.mul_assoc]
        congr 1
        omega
      have htotal : (first + 2) * exponent =
          (first + 2) * (exponent % 2) + (first + 2) * (2 * (exponent / 2)) := by
        rw [← Nat.mul_add, Nat.mod_add_div]
      exact ⟨hle, hbelow.mono (by omega)⟩

/-- A decimal in bounds has a magnitude in the middle of the range. -/
theorem Fits.magnitude_below {number : Scaled} (h : number.Fits) : Below 1023 number.magnitude := by
  have hmantissa : number.mantissa < 2 ^ 96 := h.mantissa
  have hscale : number.scale ≤ 28 := h.scale
  have hunit : 0 < Nat.pow 10 number.scale := Nat.pow_pos (by decide)
  have hten : unitsOfOne ≤ unitsOfNat 10 ∧ Below (4 + 2) (unitsOfNat 10) :=
    ⟨unitsOfOne_le_unitsOfNat (by decide), unitsOfNat_below (by decide)⟩
  have hone : unitsOfOne ≤ unitsOfNat 1 ∧ Below (1 + 2) (unitsOfNat 1) :=
    ⟨unitsOfOne_le_unitsOfNat (by decide), unitsOfNat_below (by decide)⟩
  rw [magnitude]
  simp only
  generalize Nat.pow 10 number.scale = unit at hunit ⊢
  have hwhole : Below 98 (unitsOfNat (number.mantissa / unit)) :=
    unitsOfNat_below ((Nat.div_le_self _ _).trans_lt hmantissa)
  have hrest : Below 98 (unitsOfNat (number.mantissa % unit)) :=
    unitsOfNat_below ((Nat.mod_le _ _).trans_lt hmantissa)
  have hfraction := quotient_below (unitsOfOne_le_unitsOfNat hunit) hrest
  split
  case isTrue => exact hwhole.mono (by decide)
  case isFalse =>
    have hpowers : unitsOfOne ≤ power (unitsOfNat 10) (unitsOfNat 1) number.scale ∧
        Below (1 + 2 + (4 + 2 + 2) * number.scale)
          (power (unitsOfNat 10) (unitsOfNat 1) number.scale) :=
      power_bounds hten hone
    obtain ⟨hplaces, hpower⟩ := hpowers
    have hshifted := product_below (sum_below (hwhole.mono (by decide)) hfraction) hpower
    generalize power (unitsOfNat 10) (unitsOfNat 1) number.scale = shift at hplaces hshifted ⊢
    generalize product _ shift = shifted at hshifted ⊢
    have hrounded : (2 * shifted + unitsOfOne) / (2 * unitsOfOne) < 2 ^ 400 := by
      have hbelow : shifted < 2 ^ 399 * unitsOfOne := by
        rw [unitsOfOne_eq, ← pow_add, Nat.add_comm]
        exact hshifted.mono (by omega)
      rw [Nat.div_lt_iff_lt_mul (by have := unitsOfOne_pos; omega), pow_succ]
      omega
    exact (quotient_below hplaces (unitsOfNat_below hrounded)).mono (by decide)

/-- A decimal in bounds has a finite floating-point number. -/
theorem Fits.isFinite_toBinary64 {number : Scaled} (h : number.Fits) :
    number.toBinary64.isFinite = true := by
  have hunits : number.magnitude * unitsOfOne / unitsOfOne < 2 ^ (places + 1023) := by
    rw [Nat.mul_div_cancel _ unitsOfOne_pos]
    exact h.magnitude_below
  exact Binary64.isFinite_ofRatio hunits

end Scaled

/-- A text that is read as a floating-point number gives a finite one. -/
theorem isFinite_of_real? {text : List Char} {x : Binary64} (h : real? text = some x) :
    x.isFinite = true := by
  rw [real?] at h
  simp only [Option.bind_eq_bind, Option.bind_none, Option.ite_none_left_eq_some] at h
  obtain ⟨exponent, _, h⟩ := Option.bind_eq_some_iff.mp h.2
  obtain ⟨hfinite, h⟩ := Option.ite_none_right_eq_some.mp h
  obtain rfl := Option.some.inj h
  exact hfinite

/-- The number that a text writes is finite when it is no integer. -/
theorem isFinite_of_number? {text : List Char} {x : Binary64}
    (h : number? text = some (.real x)) : x.isFinite = true := by
  rw [number?] at h
  cases hscaled : Scaled.read? text with
  | some decimal =>
    simp only [hscaled, Option.some.injEq, Scaled.number] at h
    split at h
    · simp at h
    · obtain rfl := Number.real.inj h
      exact (Scaled.fits_of_read? hscaled).isFinite_toBinary64
  | none =>
    simp only [hscaled] at h
    obtain ⟨y, hy, hsame⟩ := Option.map_eq_some_iff.mp h
    obtain rfl := Number.real.inj hsame
    exact isFinite_of_real? hy

end FilterRules.Numeral
