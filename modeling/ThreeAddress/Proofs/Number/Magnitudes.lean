import Mathlib.Tactic.Ring
import ThreeAddress.Number.Double

/-! How large the results of rounding are. What is below a power of two is rounded to a number
with at most that exponent, so the product of two moderate numbers is finite.
-/

namespace ThreeAddress.Double

theorem divideToEven_le {numerator denominator : Nat}
    : divideToEven numerator denominator ≤ numerator / denominator + 1 := by
  simp only [divideToEven]
  grind

/-- A number shifted down by its excess over 53 bits has at most 53 bits. -/
theorem shiftedDown_lt (n : Nat) : n / 2 ^ (Nat.log2 n - 52) < 2 ^ 53 := by
  apply Nat.div_lt_of_lt_mul
  rw [← Nat.pow_add]
  calc n < 2 ^ (Nat.log2 n + 1) := Nat.lt_log2_self
    _ ≤ 2 ^ (Nat.log2 n - 52 + 53) := Nat.pow_le_pow_right (by decide) (by omega)

/-- The shift and the significand of a rounded ratio make up a magnitude that its quotient
bounds.
-/
theorem magnitude_le {scaled denominator k : Nat} (below : scaled / denominator < 2 ^ (1074 + k))
    : (Nat.log2 (scaled / denominator) - 52) * fractionCount
        + divideToEven scaled (denominator <<< (Nat.log2 (scaled / denominator) - 52))
      ≤ (1023 + k) * fractionCount := by
  have rounded : divideToEven scaled (denominator <<< (Nat.log2 (scaled / denominator) - 52))
      ≤ 2 ^ 53 := by
    have cut : scaled / (denominator <<< (Nat.log2 (scaled / denominator) - 52)) < 2 ^ 53 := by
      rw [Nat.shiftLeft_eq, ← Nat.div_div_eq_div_mul]
      exact shiftedDown_lt _
    exact divideToEven_le.trans cut
  have shift : Nat.log2 (scaled / denominator) - 52 ≤ 1021 + k := by
    by_cases zero : scaled / denominator = 0
    · simp [zero]
    · have := (Nat.log2_lt zero).mpr below
      omega
  calc _ ≤ (1021 + k) * fractionCount + 2 * fractionCount :=
        Nat.add_le_add (Nat.mul_le_mul_right _ shift) rounded
    _ = (1023 + k) * fractionCount := by ring

theorem shiftLeft_div_lt {numerator denominator k : Nat} (places : Nat)
    (below : numerator < denominator * 2 ^ k)
    : (numerator <<< places) / denominator < 2 ^ (places + k) := by
  apply Nat.div_lt_of_lt_mul
  rw [Nat.shiftLeft_eq, Nat.add_comm, Nat.pow_add, ← Nat.mul_assoc]
  exact (Nat.mul_lt_mul_right (Nat.two_pow_pos _)).mpr below

/-- The bits of a number without sign are its magnitude, at most those of infinity. -/
theorem toNat_bits_le {magnitude bound : Nat} (small : magnitude ≤ bound)
    : (Double.mk (UInt64.ofNat (min magnitude infinityBits
        + if false then signWeight else 0))).bits.toNat ≤ bound := by
  have word : infinityBits < UInt64.size := by decide
  -- The sum is rewritten and not computed: the weights are too large to count up to.
  rw [if_neg Bool.false_ne_true, Nat.add_zero,
    UInt64.toNat_ofNat_of_lt' (Nat.lt_of_le_of_lt (Nat.min_le_right ..) word)]
  exact (Nat.min_le_left ..).trans small

/-- A ratio below a power of two is rounded to a number with at most that exponent. -/
theorem exponentField_ofRatio_le {numerator denominator k : Nat}
    (below : numerator < denominator * 2 ^ k)
    : (ofRatio false numerator denominator).exponentField ≤ 1023 + k := by
  have bits : (ofRatio false numerator denominator).bits.toNat ≤ (1023 + k) * fractionCount := by
    rw [ofRatio]
    exact toNat_bits_le (magnitude_le (shiftLeft_div_lt 1074 below))
  calc _ ≤ (ofRatio false numerator denominator).bits.toNat / fractionCount := Nat.mod_le ..
    _ ≤ 1023 + k := Nat.div_le_of_le_mul (by rwa [Nat.mul_comm] at bits)

/-- A number is below the power of two after its exponent. -/
theorem units_lt {x : Double} {k : Nat} (bound : x.exponentField ≤ 1023 + k)
    : x.units < 2 ^ (1075 + k) := by
  have significand : x.significand < 2 ^ 53 := by
    have fraction : x.fractionField < fractionCount := Nat.mod_lt _ (by decide)
    have weight : fractionCount = 2 ^ 52 := rfl
    simp only [Double.significand]
    grind
  have shift : x.shift ≤ 1022 + k := by
    simp only [Double.shift]
    omega
  calc x.units = x.significand * 2 ^ x.shift := Nat.shiftLeft_eq ..
    _ < 2 ^ 53 * 2 ^ x.shift := (Nat.mul_lt_mul_right (Nat.two_pow_pos _)).mpr significand
    _ = 2 ^ (53 + x.shift) := (Nat.pow_add ..).symm
    _ ≤ 2 ^ (1075 + k) := Nat.pow_le_pow_right (by decide) (by omega)

/-- The exponents of two factors add up, with two more for their significands. -/
theorem exponentField_times_le {x y : Double} {j k : Nat} (left : x.exponentField ≤ 1023 + j)
    (right : y.exponentField ≤ 1023 + k)
    : (x.times y).exponentField ≤ 1023 + (2 + j + k) := by
  apply exponentField_ofRatio_le
  calc x.units * y.units < 2 ^ (1075 + j) * 2 ^ (1075 + k) :=
        Nat.mul_lt_mul'' (units_lt left) (units_lt right)
    _ = 2 ^ (2148 + (2 + j + k)) := by
        rw [← Nat.pow_add]
        congr 1
        omega
    _ = 1 <<< 2148 * 2 ^ (2 + j + k) := by rw [Nat.pow_add, ← Nat.one_shiftLeft 2148]

/-- Digits that fit 64 bits are in range when no power of ten scales them up. -/
theorem isSome_ofDecimal? {negative : Bool} {digits : Nat} {exponent : Int}
    (word : digits < 2 ^ 64) (notUp : exponent ≤ 0)
    : (ofDecimal? negative digits exponent).isSome := by
  rcases notUp.lt_or_eq with down | rfl
  · simp [ofDecimal?, down]
  · have base : (ofRatio false digits 1).exponentField ≤ 1023 + 64 :=
      exponentField_ofRatio_le (by omega)
    have one : (powerOfTen 0).exponentField ≤ 1023 + 1 :=
      exponentField_ofRatio_le (by decide)
    have product := exponentField_times_le base one
    have finite : ((ofRatio false digits 1).times (powerOfTen 0)).isInfinite = false := by
      simp only [isInfinite, Bool.and_eq_false_imp, beq_iff_eq]
      omega
    simp [ofDecimal?, finite]

end ThreeAddress.Double
