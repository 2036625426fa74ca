import PaintOrder.Proofs.Geometry.Coordinates

/-!
# Midpoints of coordinates

The sum of two coordinates may leave the range of coordinates, but not that of doubles, and a
double has room for half a step.  So the middle of two coordinates is their sum halved, rounded
once, with a half going away from zero.  It lies between the two and is never cut off at an end
of the range.
-/

namespace PaintOrder

open Binary64

/-- Half of a whole number, rounded to the nearest whole number, a half going away from zero. -/
def halved (number : Int) : Int :=
  if 0 ≤ number then (number + 1) / 2 else -((1 - number) / 2)

section Halves

variable {least greatest number : Int}

theorem halved_two_mul (number : Int) : halved (2 * number) = number := by
  unfold halved
  split_ifs <;> omega

theorem le_halved (le : least ≤ greatest) : least ≤ halved (least + greatest) := by
  unfold halved
  split_ifs <;> omega

theorem halved_le (le : least ≤ greatest) : halved (least + greatest) ≤ greatest := by
  unfold halved
  split_ifs <;> omega

/-- Halves of sums of two 32-bit numbers are 32-bit numbers. -/
theorem halved_mem (notLess : -4294967296 ≤ number) (notMore : number ≤ 4294967294) :
    -2147483648 ≤ halved number ∧ halved number ≤ 2147483647 := by
  unfold halved
  split_ifs <;> omega

end Halves

namespace Binary64

/-- A magnitude that is half of a whole number is rounded up. -/
theorem roundMagnitude_of_half {mantissa count : Nat} {exponent : Int}
    (isHalf : (mantissa * 2 ^ exponent : ℚ) = count / 2) :
    roundMagnitude mantissa exponent = (count + 1) / 2 := by
  obtain ⟨notMore, less⟩ := roundMagnitude_bounds mantissa exponent
  rw [isHalf] at notMore less
  have notMore : 2 * (roundMagnitude mantissa exponent : ℚ) ≤ count + 1 := by linarith
  have less : (count : ℚ) < 2 * roundMagnitude mantissa exponent + 1 := by linarith
  have notMore : 2 * roundMagnitude mantissa exponent ≤ count + 1 := by exact_mod_cast notMore
  have less : count < 2 * roundMagnitude mantissa exponent + 1 := by exact_mod_cast less
  omega

/-- A double that is half of a whole number is rounded away from zero. -/
theorem toInt_nearestInt32_of_half {number : Float} {count : ℤ}
    (denotes : Denotes number (count / 2)) (notLess : -4294967296 ≤ count)
    (notMore : count ≤ 4294967294) : (nearestInt32 number).toInt = halved count := by
  have range := halved_mem notLess notMore
  generalize isValue : (count / 2 : ℚ) = value at denotes
  unfold Denotes at denotes
  unfold nearestInt32
  generalize number.toModel.unpack = unpacked at denotes ⊢
  cases denotes with
  | zero sign =>
      have nothing : count = 0 := by
        have : (count : ℚ) = 0 := by linarith
        exact_mod_cast this
      rw [nothing]
      rfl
  | @finite sign mantissa exponent canonical positive =>
      have magnitude : (0 : ℚ) < mantissa * 2 ^ exponent := by positivity
      suffices rounded : sign.apply (roundMagnitude mantissa exponent) = halved count by
        change (clampInt32 (sign.apply (roundMagnitude mantissa exponent))).toInt = _
        rw [rounded, toInt_clampInt32]
        omega
      cases sign with
      | negative =>
          change (count / 2 : ℚ) = -(mantissa * 2 ^ exponent) at isValue
          have negative : count < 0 := by
            have : (count : ℚ) < 0 := by linarith
            exact_mod_cast this
          obtain ⟨size, rfl⟩ : ∃ size : ℕ, count = -size := ⟨count.natAbs, by omega⟩
          have isHalf : (mantissa * 2 ^ exponent : ℚ) = size / 2 := by
            push_cast at isValue
            linarith
          rw [roundMagnitude_of_half isHalf]
          change -(((size + 1) / 2 : ℕ) : ℤ) = _
          unfold halved
          rw [if_neg (by omega)]
          omega
      | positive =>
          change (count / 2 : ℚ) = mantissa * 2 ^ exponent at isValue
          have positive : 0 < count := by
            have : (0 : ℚ) < count := by linarith
            exact_mod_cast this
          obtain ⟨size, rfl⟩ : ∃ size : ℕ, count = size := ⟨count.toNat, by omega⟩
          have isHalf : (mantissa * 2 ^ exponent : ℚ) = size / 2 := by
            rw [← isValue, Int.cast_natCast]
          rw [roundMagnitude_of_half isHalf]
          change (((size + 1) / 2 : ℕ) : ℤ) = _
          unfold halved
          rw [if_pos (by omega)]
          omega

end Binary64

namespace Fixed

/-- A double that is a whole number of half steps becomes the coordinate with half as many
steps. -/
theorem toInt_raw_ofFloat {number : Float} {count : ℤ} (denotes : Denotes number (count / 131072))
    (notLess : -4294967296 ≤ count) (notMore : count ≤ 4294967294) :
    (ofFloat number).raw.toInt = halved count := by
  have isHalf : (count / 131072 * 65536 : ℚ) = count / 2 := by ring
  have storable : Storable (count / 131072 * 65536) := by
    apply storable_of_eq_div count 1
    · rw [isHalf, pow_one]
    · rw [abs_lt]
      constructor <;> omega
    · norm_num
  have scaled := denotes.mul_exact denotes_steps storable
  rw [isHalf] at scaled
  exact toInt_nearestInt32_of_half scaled notLess notMore

/-- A coordinate is found again from its double. -/
theorem ofFloat_toFloat (number : Fixed) : ofFloat number.toFloat = number := by
  obtain ⟨least, greatest⟩ := number.raw_mem
  have halfSteps : number.value = (2 * number.raw.toInt : ℤ) / 131072 := by
    unfold value
    push_cast
    ring
  have denotes := number.denotes_toFloat
  rw [halfSteps] at denotes
  have same := toInt_raw_ofFloat denotes (by omega) (by omega)
  rw [halved_two_mul] at same
  exact congrArg Fixed.mk (Int32.toInt_inj.mp same)

/-- Doubles of coordinates are ordered as the coordinates are. -/
theorem toFloat_le_iff (left right : Fixed) :
    left.toFloat ≤ right.toFloat ↔ left.raw.toInt ≤ right.raw.toInt := by
  rw [left.denotes_toFloat.le_iff right.denotes_toFloat, value, value,
    div_le_div_iff_of_pos_right (by norm_num), Int.cast_le]

/-- The middle of two coordinates is half of their exact sum, rounded once. -/
theorem toInt_raw_middle (left right : Fixed) :
    (ofFloat ((left.toFloat + right.toFloat) / 2)).raw.toInt =
      halved (left.raw.toInt + right.raw.toInt) := by
  obtain ⟨leftLeast, leftGreatest⟩ := left.raw_mem
  obtain ⟨rightLeast, rightGreatest⟩ := right.raw_mem
  have bits : |left.raw.toInt + right.raw.toInt| < 2 ^ 53 := by
    rw [abs_lt]
    constructor <;> omega
  have sum : left.value + right.value = (left.raw.toInt + right.raw.toInt : ℤ) / 2 ^ 16 := by
    unfold value
    push_cast
    ring
  have half : (left.value + right.value) / 2 =
      (left.raw.toInt + right.raw.toInt : ℤ) / 2 ^ 17 := by
    rw [sum]
    ring
  have isSum := left.denotes_toFloat.add_exact right.denotes_toFloat
    (storable_of_eq_div _ 16 sum bits (by norm_num))
  have isHalf := isSum.div_exact denotes_two (by norm_num)
    (storable_of_eq_div _ 17 half bits (by norm_num))
  rw [half] at isHalf
  apply toInt_raw_ofFloat _ (by omega) (by omega)
  norm_num at isHalf ⊢
  exact isHalf

end Fixed

end PaintOrder
