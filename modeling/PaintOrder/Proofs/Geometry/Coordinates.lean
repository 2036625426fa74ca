import PaintOrder.Proofs.Binary64.Arithmetic

/-!
# Coordinates as numbers

A coordinate stands for a whole number of steps of `1 / 65536`.  As a double it is exact, and so
is the difference of two coordinates.  A double becomes the coordinate nearest to it, which is
off by at most half a step as long as the number can be reached at all.
-/

namespace PaintOrder

open Float.Model.UnpackedFloat (Sign)
open Binary64

namespace Binary64

section Nearest

/-- A magnitude becomes the nearest whole number, the larger one if there are two. -/
theorem roundMagnitude_bounds (mantissa : Nat) (exponent : Int) :
    (roundMagnitude mantissa exponent : ℚ) - 1 / 2 ≤ mantissa * 2 ^ exponent ∧
      (mantissa * 2 ^ exponent : ℚ) < roundMagnitude mantissa exponent + 1 / 2 := by
  cases exponent with
  | ofNat shift =>
      unfold roundMagnitude
      dsimp only
      rw [Nat.shiftLeft_eq, Int.ofNat_eq_natCast, zpow_natCast]
      push_cast
      constructor <;> linarith
  | negSucc shift =>
      have scale : (0 : ℚ) < 2 ^ (shift + 1) := by positivity
      unfold roundMagnitude
      dsimp only
      rw [Nat.shiftRight_eq_div_pow, Nat.shiftLeft_eq, one_mul, zpow_negSucc, ← div_eq_mul_inv]
      have parts := Nat.div_add_mod (mantissa + 2 ^ shift) (2 ^ (shift + 1))
      have rest := Nat.mod_lt (mantissa + 2 ^ shift) (Nat.two_pow_pos (shift + 1))
      generalize (mantissa + 2 ^ shift) / 2 ^ (shift + 1) = quotient at parts ⊢
      generalize (mantissa + 2 ^ shift) % 2 ^ (shift + 1) = remainder at parts rest
      have parts : (2 : ℚ) ^ (shift + 1) * quotient + remainder = mantissa + 2 ^ shift := by
        exact_mod_cast parts
      have rest : (remainder : ℚ) < 2 ^ (shift + 1) := by exact_mod_cast rest
      have nonneg : (0 : ℚ) ≤ remainder := Nat.cast_nonneg remainder
      have half : (2 : ℚ) ^ (shift + 1) = 2 * 2 ^ shift := pow_succ' 2 shift
      rw [le_div_iff₀ scale, div_lt_iff₀ scale]
      constructor <;> linarith

theorem abs_roundMagnitude_sub_le (mantissa : Nat) (exponent : Int) :
    |(roundMagnitude mantissa exponent : ℚ) - mantissa * 2 ^ exponent| ≤ 1 / 2 := by
  obtain ⟨notMore, less⟩ := roundMagnitude_bounds mantissa exponent
  rw [abs_le]
  constructor <;> linarith

theorem toInt_clampInt32 (number : Int) :
    (clampInt32 number).toInt = max (-2147483648) (min 2147483647 number) :=
  Int32.toInt_ofInt_of_le (by omega) (by omega)

/-- Keeping to a range brings a number no further away from anything in that range. -/
theorem abs_clampInt32_sub_le (number : Int) {target : ℚ} (least : -2147483648 ≤ target)
    (greatest : target ≤ 2147483647) :
    |((clampInt32 number).toInt : ℚ) - target| ≤ |(number : ℚ) - target| := by
  rw [toInt_clampInt32]
  push_cast
  rcases le_total (number : ℚ) 2147483647 with below | above
  · rw [min_eq_right below]
    rcases le_total (-2147483648 : ℚ) number with inside | outside
    · rw [max_eq_right inside]
    · rw [max_eq_left outside, abs_of_nonpos (by linarith), abs_of_nonpos (by linarith)]
      linarith
  · rw [min_eq_left above, max_eq_right (by norm_num), abs_of_nonneg (by linarith),
      abs_of_nonneg (by linarith)]
    linarith

/-- Rounding to 32 bits brings a double at most a half away from anything in the range. -/
theorem abs_nearestInt32_sub_le {number : Float} {value target : ℚ}
    (denotes : Denotes number value) (least : -2147483648 ≤ target)
    (greatest : target ≤ 2147483647) :
    |((nearestInt32 number).toInt : ℚ) - target| ≤ |value - target| + 1 / 2 := by
  unfold Denotes at denotes
  unfold nearestInt32
  generalize number.toModel.unpack = unpacked at denotes ⊢
  cases denotes with
  | zero sign =>
      change |((0 : ℤ) : ℚ) - target| ≤ |0 - target| + 1 / 2
      rw [Int.cast_zero]
      linarith
  | @finite sign mantissa exponent canonical positive =>
      change |((clampInt32 (sign.apply (roundMagnitude mantissa exponent))).toInt : ℚ) - target| ≤ _
      have whole : ((sign.apply (roundMagnitude mantissa exponent) : ℤ) : ℚ) =
          signed sign (roundMagnitude mantissa exponent) := by
        have cast := signed_mul_eq sign (roundMagnitude mantissa exponent) 1
        rw [mul_one, mul_one] at cast
        exact cast.symm
      have clamped := abs_clampInt32_sub_le (sign.apply (roundMagnitude mantissa exponent)) least
        greatest
      have near : |((sign.apply (roundMagnitude mantissa exponent) : ℤ) : ℚ) -
          signed sign (mantissa * 2 ^ exponent)| ≤ 1 / 2 := by
        rw [whole, abs_signed_sub]
        exact abs_roundMagnitude_sub_le mantissa exponent
      have further := abs_sub_le ((sign.apply (roundMagnitude mantissa exponent) : ℤ) : ℚ)
        (signed sign (mantissa * 2 ^ exponent)) target
      linarith

end Nearest

end Binary64

namespace Fixed

/-- The number that a coordinate stands for. -/
def value (number : Fixed) : ℚ :=
  number.raw.toInt / 65536

theorem raw_mem (number : Fixed) :
    -2147483648 ≤ number.raw.toInt ∧ number.raw.toInt ≤ 2147483647 :=
  ⟨number.raw.le_toInt, number.raw.toInt_le⟩

theorem value_mem (number : Fixed) : -32768 ≤ number.value ∧ number.value ≤ 32768 - 1 / 65536 := by
  obtain ⟨least, greatest⟩ := number.raw_mem
  have least : (-2147483648 : ℚ) ≤ number.raw.toInt := by exact_mod_cast least
  have greatest : (number.raw.toInt : ℚ) ≤ 2147483647 := by exact_mod_cast greatest
  unfold value
  constructor <;> linarith

theorem abs_value_le (number : Fixed) : |number.value| ≤ 32768 := by
  obtain ⟨least, greatest⟩ := number.value_mem
  rw [abs_le]
  constructor <;> linarith

theorem value_eq_zero (number : Fixed) (small : |number.value| < 1 / 2 ^ 16) :
    number.value = 0 := by
  have steps : |(number.raw.toInt : ℚ)| < 1 := by
    unfold value at small
    rw [abs_div, abs_of_pos (by norm_num : (0 : ℚ) < 65536)] at small
    linarith
  have none : number.raw.toInt = 0 := Int.abs_lt_one_iff.mp (by exact_mod_cast steps)
  unfold value
  rw [none, Int.cast_zero, zero_div]

/-- The magnitude of a coordinate is exact as a double. -/
theorem denotes_magnitude (number : Fixed) :
    Denotes (number.raw.toInt.natAbs.toUInt64.toFloat / 65536) |number.value| := by
  obtain ⟨least, greatest⟩ := number.raw_mem
  have few : number.raw.toInt.natAbs ≤ 2147483648 := by omega
  have same : number.raw.toInt.natAbs.toUInt64.toNat = number.raw.toInt.natAbs :=
    Nat.mod_eq_of_lt (by omega)
  have steps := Binary64.denotes_toFloat number.raw.toInt.natAbs.toUInt64 (by omega)
  have magnitude : |number.value| = number.raw.toInt.natAbs / 65536 := by
    unfold value
    rw [abs_div, Nat.cast_natAbs, Int.cast_abs, abs_of_pos (by norm_num : (0 : ℚ) < 65536)]
  have storable : Storable (number.raw.toInt.natAbs / 65536) := by
    apply storable_of_eq_div number.raw.toInt.natAbs 16
    · norm_num
    · rw [Nat.abs_cast]
      omega
    · norm_num
  rw [same] at steps
  rw [magnitude]
  exact steps.div_exact denotes_steps (by norm_num) storable

/-- A coordinate is exact as a double. -/
theorem denotes_toFloat (number : Fixed) : Denotes number.toFloat number.value := by
  have magnitude := number.denotes_magnitude
  unfold toFloat
  dsimp only
  split_ifs with negative
  · have isNegative : number.value ≤ 0 := by
      have : number.raw.toInt < 0 := Int32.lt_iff_toInt_lt.mp negative
      have : (number.raw.toInt : ℚ) ≤ 0 := by exact_mod_cast this.le
      unfold value
      linarith
    rw [abs_of_nonpos isNegative] at magnitude
    have negated := magnitude.neg
    rwa [neg_neg] at negated
  · have notNegative : 0 ≤ number.value := by
      have : 0 ≤ number.raw.toInt := by
        rw [Int32.lt_iff_toInt_lt] at negative
        exact not_lt.mp negative
      have : (0 : ℚ) ≤ number.raw.toInt := by exact_mod_cast this
      unfold value
      linarith
    rwa [abs_of_nonneg notNegative] at magnitude

theorem abs_value_sub_le (left right : Fixed) : |left.value - right.value| ≤ 65536 := by
  obtain ⟨leftLeast, leftGreatest⟩ := left.value_mem
  obtain ⟨rightLeast, rightGreatest⟩ := right.value_mem
  rw [abs_le]
  constructor <;> linarith

/-- The difference of two coordinates is exact. -/
theorem denotes_sub (left right : Fixed) :
    Denotes (left.toFloat - right.toFloat) (left.value - right.value) := by
  obtain ⟨leftLeast, leftGreatest⟩ := left.raw_mem
  obtain ⟨rightLeast, rightGreatest⟩ := right.raw_mem
  apply left.denotes_toFloat.sub_exact right.denotes_toFloat
  apply storable_of_eq_div (left.raw.toInt - right.raw.toInt) 16
  · unfold value
    push_cast
    ring
  · rw [abs_lt]
    constructor <;> omega
  · norm_num

/-- The coordinate made of a double is off by half a step and next to nothing more, as long as
the number is no further than this from the coordinates that there are. -/
theorem abs_value_ofFloat_sub_le {number : Float} {value target : ℚ}
    (denotes : Denotes number value) (bound : |value| ≤ 65536) (least : -32768 ≤ target)
    (greatest : target ≤ 32768 - 1 / 65536) :
    |(ofFloat number).value - target| ≤ |value - target| + (1 / 2 ^ 17 + 1 / 2 ^ 36) := by
  have product : |value * 65536| ≤ 2 ^ 32 := by
    rw [abs_mul, abs_of_pos (by norm_num : (0 : ℚ) < 65536)]
    linarith
  obtain ⟨result, isResult, near⟩ :=
    denotes.mul_near denotes_steps _ product (by norm_num) (by norm_num)
  have nearest : |((nearestInt32 (number * 65536)).toInt : ℚ) - target * 65536| ≤
      |result - target * 65536| + 1 / 2 :=
    abs_nearestInt32_sub_le isResult (by linarith) (by linarith)
  have further := abs_sub_le result (value * 65536) (target * 65536)
  rw [← sub_mul, abs_mul _ (65536 : ℚ), abs_of_pos (by norm_num : (0 : ℚ) < 65536)] at further
  have scaled : (ofFloat number).value - target =
      ((nearestInt32 (number * 65536)).toInt - target * 65536) / 65536 := by
    unfold ofFloat Fixed.value
    ring
  rw [scaled, abs_div, abs_of_pos (by norm_num : (0 : ℚ) < 65536),
    div_le_iff₀ (by norm_num)]
  linarith

end Fixed

end PaintOrder
