import FilterRules.Numeral.Binary64
import Mathlib.Algebra.Order.Ring.Nat
import Mathlib.Tactic.Positivity

/-!
# How far rounding moves a number

Rounding adds less than two bits to the length of a value, and leaves a value of at least one at least
one. These bounds have room to spare: they show that arithmetic in the middle of the range stays finite,
and do not say which of two magnitudes is the nearer one.
-/

namespace FilterRules.Binary64

/-- The number of binary places behind the point. -/
def places : Nat := 1074

/-- The number one in units. -/
theorem unitsOfOne_eq : unitsOfOne = 2 ^ places := by decide +kernel

/-- The lowest bit of the exponent as a power. -/
theorem exponentBit_eq : exponentBit = 2 ^ 52 := rfl

/-- The number one is positive. -/
theorem unitsOfOne_pos : 0 < unitsOfOne := by
  rw [unitsOfOne_eq]
  positivity

/-- A number without its bits behind the first fifty-three. -/
theorem shifted_lt {n k : Nat} (h : n.log2 - 52 ≤ k) : n / 2 ^ k < 2 ^ 53 := by
  have hself : n < 2 ^ (n.log2 + 1) := Nat.lt_log2_self
  have hle : 2 ^ (n.log2 + 1) ≤ 2 ^ (53 + k) := Nat.pow_le_pow_right (by decide) (by omega)
  refine (Nat.div_lt_iff_lt_mul (by positivity)).mpr ?_
  rw [← pow_add]
  exact hself.trans_le hle

/-- A number of at least fifty-three bits keeps fifty-three of them. -/
theorem le_shifted {n : Nat} (h : 52 ≤ n.log2) : 2 ^ 52 ≤ n / 2 ^ (n.log2 - 52) := by
  have hne : n ≠ 0 := by
    rintro rfl
    simp at h
  refine (Nat.le_div_iff_mul_le (by positivity)).mpr ?_
  rw [← pow_add, Nat.add_sub_cancel' h]
  exact Nat.log2_self_le hne

/-- The pattern nearest to a ratio is that of the ratio cut off after fifty-three bits, or the next one. -/
theorem nearest_bounds {numerator denominator value : Nat}
    (hvalue : value = numerator * unitsOfOne / denominator) :
    min ((value.log2 - 52) * exponentBit + value / 2 ^ (value.log2 - 52)) infiniteBits ≤
        nearest numerator denominator ∧
      nearest numerator denominator ≤
        (value.log2 - 52) * exponentBit + value / 2 ^ (value.log2 - 52) + 1 := by
  subst hvalue
  have hwhole (k : Nat) : numerator * unitsOfOne / (denominator * Nat.pow 2 k) =
      numerator * unitsOfOne / denominator / 2 ^ k := (Nat.div_div_eq_div_mul _ _ _).symm
  simp only [nearest, hwhole]
  split
  · omega
  · omega

/-- A ratio below a power of two has a pattern below that of the next power. -/
theorem nearest_le {numerator denominator bits : Nat}
    (h : numerator * unitsOfOne / denominator < 2 ^ (bits + 53)) :
    nearest numerator denominator ≤ (bits + 2) * exponentBit := by
  obtain ⟨value, hvalue⟩ : ∃ value, value = numerator * unitsOfOne / denominator := ⟨_, rfl⟩
  have hbound := (nearest_bounds hvalue).2
  have hshifted : value / 2 ^ (value.log2 - 52) < 2 ^ 53 := shifted_lt le_rfl
  have hlog : value.log2 - 52 ≤ bits := by
    by_cases hzero : value = 0
    · simp [hzero]
    · have hlt : value.log2 < bits + 53 := (Nat.log2_lt hzero).mpr (hvalue ▸ h)
      omega
  have hmul : (value.log2 - 52) * exponentBit ≤ bits * exponentBit :=
    Nat.mul_le_mul_right _ hlog
  have htwo : 2 * exponentBit = 2 ^ 53 := by decide
  rw [Nat.add_mul]
  omega

/-- A pattern has no more units than its exponent allows. -/
theorem units_le {magnitude bits : Nat} (h : magnitude ≤ (bits + 2) * exponentBit) :
    units magnitude ≤ 2 ^ (bits + 54) := by
  have hbit := exponentBit_eq
  rw [units]
  split
  case isTrue hsmall =>
    have hle : 2 ^ 52 ≤ 2 ^ (bits + 54) := Nat.pow_le_pow_right (by decide) (by omega)
    omega
  case isFalse =>
    have hmod : magnitude % exponentBit < exponentBit := Nat.mod_lt _ (by decide)
    have hexponent : magnitude / exponentBit ≤ bits + 2 :=
      Nat.div_le_of_le_mul (by rwa [Nat.mul_comm] at h)
    have hfraction : exponentBit + magnitude % exponentBit ≤ 2 ^ 53 := by omega
    have hpower : Nat.pow 2 (magnitude / exponentBit - 1) ≤ 2 ^ (bits + 1) :=
      Nat.pow_le_pow_right (by decide) (by omega)
    calc (exponentBit + magnitude % exponentBit) * Nat.pow 2 (magnitude / exponentBit - 1)
        ≤ 2 ^ 53 * 2 ^ (bits + 1) := Nat.mul_le_mul hfraction hpower
      _ = 2 ^ (bits + 54) := by rw [← pow_add]; congr 1; omega

/-- Rounding adds less than two bits to the length of a ratio. -/
theorem units_nearest_lt {numerator denominator bits : Nat} (hbits : 53 ≤ bits)
    (h : numerator * unitsOfOne / denominator < 2 ^ bits) :
    units (nearest numerator denominator) < 2 ^ (bits + 2) := by
  obtain ⟨more, rfl⟩ := Nat.exists_eq_add_of_le' hbits
  exact (units_le (nearest_le h)).trans_lt (Nat.pow_lt_pow_right (by decide) (by omega))

/-- Rounding a ratio of at least one gives at least one. -/
theorem unitsOfOne_le_units_nearest {numerator denominator : Nat} (hpos : 0 < denominator)
    (h : denominator ≤ numerator) : unitsOfOne ≤ units (nearest numerator denominator) := by
  obtain ⟨value, hvalue⟩ : ∃ value, value = numerator * unitsOfOne / denominator := ⟨_, rfl⟩
  have hbound := (nearest_bounds hvalue).1
  have hone : unitsOfOne ≤ value := by
    rw [hvalue, Nat.le_div_iff_mul_le hpos, Nat.mul_comm]
    exact Nat.mul_le_mul_right _ h
  have hlog : places ≤ value.log2 :=
    (Nat.le_log2 (unitsOfOne_pos.trans_le hone).ne').mpr (unitsOfOne_eq ▸ hone)
  have hplaces : places = 1022 + 52 := rfl
  have hshifted : 2 ^ 52 ≤ value / 2 ^ (value.log2 - 52) := le_shifted (by omega)
  have hpattern : 1023 * exponentBit ≤ nearest numerator denominator := by
    have hmul : 1022 * exponentBit ≤ (value.log2 - 52) * exponentBit :=
      Nat.mul_le_mul_right _ (by omega)
    have hinfinite : 1023 * exponentBit ≤ infiniteBits := by decide
    have hbit := exponentBit_eq
    omega
  have hexponent : 1023 ≤ nearest numerator denominator / exponentBit :=
    (Nat.le_div_iff_mul_le (by decide)).mpr hpattern
  have hpower : 2 ^ (places - 52) ≤ Nat.pow 2 (nearest numerator denominator / exponentBit - 1) :=
    Nat.pow_le_pow_right (by decide) (by omega)
  rw [units, if_neg (by omega)]
  calc unitsOfOne = exponentBit * 2 ^ (places - 52) := by
        rw [unitsOfOne_eq, exponentBit_eq, ← pow_add, Nat.add_sub_cancel' (by omega)]
    _ ≤ _ := Nat.mul_le_mul (Nat.le_add_right _ _) hpower

/-- A pattern below the infinite one is finite under either sign. -/
theorem isFinite_ofMagnitudeBits {negative : Bool} {magnitude : Nat}
    (h : magnitude < infiniteBits) : (ofMagnitudeBits negative magnitude).isFinite = true := by
  have hpattern : (ofMagnitudeBits negative magnitude).magnitudeBits = magnitude := by
    simp only [ofMagnitudeBits, magnitudeBits, UInt64.toNat_ofNat']
    unfold infiniteBits exponentBit at h
    unfold signBit
    split
    · omega
    · omega
  simpa [isFinite, hpattern] using h

/-- A ratio in range has a finite number nearest to it. -/
theorem isFinite_ofRatio {negative : Bool} {numerator denominator : Nat}
    (h : numerator * unitsOfOne / denominator < 2 ^ (places + 1023)) :
    (ofRatio negative numerator denominator).isFinite = true := by
  have hrange : places + 1023 = 2044 + 53 := rfl
  rw [hrange] at h
  have hinfinite : (2044 + 2) * exponentBit < infiniteBits := by decide
  exact isFinite_ofMagnitudeBits ((nearest_le h).trans_lt hinfinite)

end FilterRules.Binary64
