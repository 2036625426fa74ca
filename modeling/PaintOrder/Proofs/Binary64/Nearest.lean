import PaintOrder.Proofs.Binary64.Value

/-!
# Rounding to the nearest double

A result of arithmetic is rounded by dropping bits of its mantissa, where two bits remember
what was dropped.  The double that comes out is off by at most half of the place of its last
bit, so it is the result itself wherever that is a double.
-/

namespace PaintOrder.Binary64

open Float.Model Float.Model.UnpackedFloat

section Mantissas

/-- What the accuracy of a mantissa says of the exact number. -/
def Locates (mantissa : Nat) (exact : ℚ) : Accuracy → Prop
  | .exact => exact = mantissa
  | .inexact .lt => (mantissa : ℚ) < exact ∧ exact < mantissa + 1 / 2
  | .inexact .eq => exact = mantissa + 1 / 2
  | .inexact .gt => mantissa + 1 / 2 < exact ∧ exact < mantissa + 1

variable {mantissa : Nat} {exact : ℚ} {accuracy : Accuracy} {extended : ExtendedMantissa}

theorem Locates.le (locates : Locates mantissa exact accuracy) : (mantissa : ℚ) ≤ exact := by
  rcases accuracy with _ | (_ | _ | _)
  · exact locates.ge
  · exact locates.1.le
  · rw [locates]
    linarith
  · linarith [locates.1]

theorem Locates.lt (locates : Locates mantissa exact accuracy) : exact < mantissa + 1 := by
  rcases accuracy with _ | (_ | _ | _)
  · rw [locates]
    linarith
  · linarith [locates.2]
  · rw [locates]
    linarith
  · exact locates.2

/-- Rounding a mantissa to the nearest is off by a half at most. -/
theorem Locates.abs_round_sub_le (locates : Locates mantissa exact accuracy) :
    |(accuracy.roundToNearestEven mantissa : ℚ) - exact| ≤ 1 / 2 := by
  rw [abs_le]
  rcases accuracy with _ | (_ | _ | _)
  · rw [Accuracy.roundToNearestEven, locates]
    constructor <;> linarith
  · rw [Accuracy.roundToNearestEven]
    constructor <;> linarith [locates.1, locates.2]
  · have odd : mantissa % 2 = 0 ∨ mantissa % 2 = 1 := Nat.mod_two_eq_zero_or_one mantissa
    rw [Accuracy.roundToNearestEven, locates]
    rcases odd with even | odd
    · rw [even]
      push_cast
      constructor <;> linarith
    · rw [odd]
      push_cast
      constructor <;> linarith
  · rw [Accuracy.roundToNearestEven]
    push_cast
    constructor <;> linarith [locates.1, locates.2]

theorem accuracy_ofMantissaAndAccuracy (mantissa : Nat) (accuracy : Accuracy) :
    (ExtendedMantissa.ofMantissaAndAccuracy mantissa accuracy).accuracy = accuracy ∧
      (ExtendedMantissa.ofMantissaAndAccuracy mantissa accuracy).mantissa = mantissa := by
  rcases accuracy with _ | (_ | _ | _) <;> exact ⟨rfl, rfl⟩

/-- Dropping the last bit of a mantissa keeps track of where the exact number is. -/
theorem Locates.shiftRightOne (locates : Locates extended.mantissa exact extended.accuracy) :
    Locates extended.shiftRightOne.mantissa (exact / 2) extended.shiftRightOne.accuracy := by
  obtain ⟨mantissa, roundBit, stickyBit⟩ := extended
  have parts := Nat.mod_add_div mantissa 2
  have whole : ((mantissa % 2 : Nat) : ℚ) + 2 * (mantissa / 2 : Nat) = mantissa := by
    exact_mod_cast parts
  rcases Nat.mod_two_eq_zero_or_one mantissa with even | odd
  · rw [even, Nat.cast_zero, zero_add] at whole
    cases roundBit <;> cases stickyBit <;>
      simp only [ExtendedMantissa.shiftRightOne, ExtendedMantissa.accuracy, even, Locates,
        bne_self_eq_false, Bool.or_false, Bool.or_true] at locates ⊢
    · linarith
    · constructor <;> linarith
    · constructor <;> linarith
    · constructor <;> linarith
  · rw [odd, Nat.cast_one] at whole
    have isOne : (1 != 0) = true := rfl
    cases roundBit <;> cases stickyBit <;>
      simp only [ExtendedMantissa.shiftRightOne, ExtendedMantissa.accuracy, odd, Locates,
        isOne, Bool.or_false, Bool.or_true] at locates ⊢
    · linarith
    · constructor <;> linarith
    · constructor <;> linarith
    · constructor <;> linarith

theorem Locates.shiftRight (locates : Locates extended.mantissa exact extended.accuracy)
    (count : Nat) :
    Locates (extended >>> count).mantissa (exact / 2 ^ count) (extended >>> count).accuracy := by
  change Locates (count.repeat ExtendedMantissa.shiftRightOne extended).mantissa _
    (count.repeat ExtendedMantissa.shiftRightOne extended).accuracy
  induction count with
  | zero => simpa [Nat.repeat] using locates
  | succ count ih =>
      have shifted := ih.shiftRightOne
      rwa [div_div, ← pow_succ] at shifted

/-- The rounded mantissa is the mantissa or the one after it. -/
theorem roundedMantissa_bounds (extended : ExtendedMantissa) :
    extended.mantissa ≤ extended.roundedMantissa ∧
      extended.roundedMantissa ≤ extended.mantissa + 1 := by
  unfold ExtendedMantissa.roundedMantissa
  rcases extended.accuracy with _ | (_ | _ | _) <;> simp only [Accuracy.roundToNearestEven]
  · omega
  · omega
  · have := Nat.mod_lt extended.mantissa (Nat.succ_pos 1)
    omega
  · omega

end Mantissas

section Places

/-- The place of the last bit that is kept of a number with a mantissa and an exponent. -/
def targetPlace (mantissa : Nat) (exponent : Int) : Int :=
  max (mantissa.log2 + 1 + exponent - 53) (-1074)

theorem targetExponent_eq (mantissa : Nat) (exponent : Int) :
    Format.binary64.targetExponent (totalExponent mantissa exponent) =
      targetPlace mantissa exponent := by
  have least : Format.binary64.minExponent = -1074 := by decide
  have bits : (Format.binary64.mantissaBits : Int) = 53 := by decide
  unfold Format.targetExponent totalExponent targetPlace
  rw [least, bits]

theorem shiftToTargetExponent_eq (mantissa : Nat) (exponent : Int) (accuracy : Accuracy) :
    shiftToTargetExponent Format.binary64 mantissa exponent accuracy =
      (ExtendedMantissa.ofMantissaAndAccuracy mantissa accuracy >>>
          (targetPlace mantissa exponent - exponent).toNat,
        exponent + (targetPlace mantissa exponent - exponent).toNat) := by
  unfold shiftToTargetExponent shiftToExponent
  rw [targetExponent_eq]

variable {mantissa : Nat} {exponent place : Int} {exact : ℚ} {accuracy : Accuracy}

theorem two_zpow_mul_pow {count : Nat} (isPlace : place = exponent + count) :
    (2 : ℚ) ^ count * 2 ^ exponent = 2 ^ place := by
  rw [isPlace, ← zpow_natCast, ← zpow_add₀ (by norm_num), add_comm]

/-- In its last place a number has 53 bits, unless that is the least place of all. -/
theorem Locates.scaled_bounds (locates : Locates mantissa exact accuracy) {count : Nat}
    (isPlace : targetPlace mantissa exponent = exponent + count) :
    exact / 2 ^ count < 2 ^ 53 ∧
      (targetPlace mantissa exponent = -1074 ∨ 2 ^ 52 ≤ exact / 2 ^ count) := by
  have scale : (0 : ℚ) < 2 ^ count := by positivity
  constructor
  · rw [div_lt_iff₀ scale]
    have bits : mantissa.log2 + 1 ≤ 53 + count := by
      unfold targetPlace at isPlace
      omega
    have whole : mantissa + 1 ≤ 2 ^ (53 + count) :=
      Nat.lt_log2_self.trans_le (Nat.pow_le_pow_right (by norm_num) bits)
    calc exact < mantissa + 1 := locates.lt
      _ ≤ 2 ^ 53 * 2 ^ count := by
        rw [← pow_add]
        exact_mod_cast whole
  · by_cases isLeast : targetPlace mantissa exponent = -1074
    · exact .inl isLeast
    · right
      rw [le_div_iff₀ scale]
      have bits : 52 + count = mantissa.log2 := by
        unfold targetPlace at isPlace isLeast
        omega
      have positive : mantissa ≠ 0 := by
        rintro rfl
        have := Nat.log2_zero
        omega
      have whole : 2 ^ (52 + count) ≤ mantissa := by
        rw [bits]
        exact Nat.log2_self_le positive
      calc (2 : ℚ) ^ 52 * 2 ^ count ≤ mantissa := by
            rw [← pow_add]
            exact_mod_cast whole
        _ ≤ exact := locates.le

/-- A mantissa that fits is not shifted. -/
theorem shift_of_lt (lt : mantissa < 2 ^ 53) (least : -1074 ≤ exponent) :
    shiftToTargetExponent Format.binary64 mantissa exponent .exact =
      (⟨mantissa, false, false⟩, exponent) := by
  have bits : mantissa.log2 < 53 := by
    rcases Nat.eq_zero_or_pos mantissa with rfl | positive
    · decide
    · exact (Nat.log2_lt positive.ne').mpr lt
  have nothing : (targetPlace mantissa exponent - exponent).toNat = 0 := by
    unfold targetPlace
    omega
  rw [shiftToTargetExponent_eq, nothing]
  simp [HShiftRight.hShiftRight, Nat.repeat, ExtendedMantissa.ofMantissaAndAccuracy]

/-- A mantissa that was rounded up to one bit too many loses a zero. -/
theorem shift_of_eq (least : -1074 ≤ exponent) :
    shiftToTargetExponent Format.binary64 (2 ^ 53) exponent .exact =
      (⟨2 ^ 52, false, false⟩, exponent + 1) := by
  have one : (targetPlace (2 ^ 53) exponent - exponent).toNat = 1 := by
    unfold targetPlace
    rw [Nat.log2_two_pow]
    omega
  rw [shiftToTargetExponent_eq, one]
  rfl

end Places

section Rounding

/-- One number is another one rounded to a double: a whole number of places, off by half a
place at most, where the place is that of the last of 53 bits unless it is the least one. -/
def Rounded (exact result : ℚ) : Prop :=
  ∃ place count : ℤ, -1074 ≤ place ∧ (place = -1074 ∨ 2 ^ (place + 52) ≤ |exact|) ∧
    result = count * 2 ^ place ∧ |result - exact| ≤ 2 ^ place / 2

/-- A number in 53 bits is a double, also if all of them are needed for one more. -/
theorem ordinary_carried {sign : Sign} {mantissa : Nat} {place : Int} (le : mantissa ≤ 2 ^ 53)
    (least : -1074 ≤ place) (greatest : place ≤ 970)
    (normal : 2 ^ 52 ≤ mantissa ∨ place = -1074) :
    let shifted := shiftToTargetExponent Format.binary64 mantissa place .exact
    Ordinary (if isZero : shifted.1.mantissa = 0 then .zero sign
      else .finite sign shifted.1.mantissa shifted.2 (Nat.pos_of_ne_zero isZero))
      (signed sign (mantissa * 2 ^ place)) := by
  rcases Nat.lt_or_eq_of_le le with lt | rfl
  · rw [shift_of_lt lt least]
    by_cases isZero : mantissa = 0
    · subst isZero
      have nothing : signed sign ((0 : Nat) * 2 ^ place) = 0 := by
        cases sign <;> simp [signed]
      rw [nothing]
      exact .zero sign
    · dsimp only
      rw [dif_neg isZero]
      exact .finite ⟨lt, least, by omega, normal⟩ _
  · rw [shift_of_eq least]
    have same : ((2 ^ 53 : Nat) * 2 ^ place : ℚ) = (2 ^ 52 : Nat) * 2 ^ (place + 1) := by
      rw [zpow_add_one₀ (by norm_num)]
      push_cast
      ring
    rw [same]
    exact .finite ⟨by norm_num, by omega, by omega, .inl (by norm_num)⟩ _

theorem abs_signed_sub (sign : Sign) (left right : ℚ) :
    |signed sign left - signed sign right| = |left - right| := by
  cases sign
  · change |-left - -right| = |left - right|
    rw [neg_sub_neg, abs_sub_comm]
  · rfl

theorem signed_mul_eq (sign : Sign) (count : Nat) (scale : ℚ) :
    signed sign (count * scale) = (sign.apply count : ℤ) * scale := by
  cases sign <;> simp [signed, Sign.apply]

variable {sign : Sign} {mantissa : Nat} {exponent : Int} {exact : ℚ} {accuracy : Accuracy}

/-- Rounding a number that is not too large gives a double that is the number rounded. -/
theorem ordinary_roundWithAccuracy (locates : Locates mantissa exact accuracy)
    (fits : exponent ≤ targetPlace mantissa exponent)
    (finite : targetPlace mantissa exponent ≤ 970) :
    ∃ result,
      Ordinary (roundWithAccuracy Format.binary64 sign mantissa exponent accuracy) result ∧
      Rounded (signed sign (exact * 2 ^ exponent)) result := by
  obtain ⟨count, isPlace⟩ : ∃ count : Nat, targetPlace mantissa exponent = exponent + count :=
    ⟨(targetPlace mantissa exponent - exponent).toNat, by omega⟩
  have least : -1074 ≤ targetPlace mantissa exponent := le_max_right _ _
  obtain ⟨lt, normal⟩ := locates.scaled_bounds isPlace
  -- the exact number in units of the last place
  obtain ⟨extended, shifted, here⟩ : ∃ extended,
      shiftToTargetExponent Format.binary64 mantissa exponent accuracy =
        (extended, targetPlace mantissa exponent) ∧
      Locates extended.mantissa (exact / 2 ^ count) extended.accuracy := by
    obtain ⟨sameAccuracy, sameMantissa⟩ := accuracy_ofMantissaAndAccuracy mantissa accuracy
    refine ⟨ExtendedMantissa.ofMantissaAndAccuracy mantissa accuracy >>> count, ?_, ?_⟩
    · have isCount : (targetPlace mantissa exponent - exponent).toNat = count := by omega
      rw [shiftToTargetExponent_eq, isCount, isPlace]
    · apply Locates.shiftRight
      rwa [sameAccuracy, sameMantissa]
  obtain ⟨notLess, notMore⟩ := roundedMantissa_bounds extended
  have below : extended.mantissa < 2 ^ 53 := by
    exact_mod_cast here.le.trans_lt lt
  have above : 2 ^ 52 ≤ extended.roundedMantissa ∨ targetPlace mantissa exponent = -1074 := by
    apply normal.symm.imp_left
    intro full
    have : (2 : ℚ) ^ 52 < extended.mantissa + 1 := full.trans_lt here.lt
    have : 2 ^ 52 < extended.mantissa + 1 := by exact_mod_cast this
    omega
  have scaled : exact * 2 ^ exponent = exact / 2 ^ count * 2 ^ targetPlace mantissa exponent := by
    rw [← two_zpow_mul_pow isPlace]
    field_simp
  have nonneg : 0 ≤ exact := (Nat.cast_nonneg mantissa).trans locates.le
  refine ⟨signed sign (extended.roundedMantissa * 2 ^ targetPlace mantissa exponent), ?_,
    targetPlace mantissa exponent, sign.apply extended.roundedMantissa, least, ?_,
    signed_mul_eq _ _ _, ?_⟩
  · unfold roundWithAccuracy
    rw [shifted]
    exact ordinary_carried (by omega) least finite above
  · rw [abs_signed (by positivity), scaled]
    apply normal.imp_right
    intro full
    rw [add_comm, zpow_add₀ (by norm_num)]
    gcongr
    exact_mod_cast full
  · rw [abs_signed_sub, scaled, ← sub_mul, abs_mul,
      abs_of_pos (show (0 : ℚ) < 2 ^ targetPlace mantissa exponent by positivity)]
    calc |(extended.roundedMantissa : ℚ) - exact / 2 ^ count| *
          2 ^ targetPlace mantissa exponent
        ≤ 1 / 2 * 2 ^ targetPlace mantissa exponent := by
          gcongr
          exact here.abs_round_sub_le
      _ = 2 ^ targetPlace mantissa exponent / 2 := by ring

/-- A number below the greatest power of two has its last place where doubles have one. -/
theorem targetPlace_le (locates : Locates mantissa exact accuracy)
    (fits : exponent ≤ targetPlace mantissa exponent) (small : exact * 2 ^ exponent < 2 ^ 1023) :
    targetPlace mantissa exponent ≤ 970 := by
  rcases Nat.eq_zero_or_pos mantissa with rfl | positive
  · unfold targetPlace at fits ⊢
    rw [Nat.log2_zero] at fits ⊢
    omega
  · have first : (2 : ℚ) ^ (mantissa.log2 + exponent) < 2 ^ (1023 : ℤ) := by
      calc (2 : ℚ) ^ (mantissa.log2 + exponent)
          = 2 ^ mantissa.log2 * 2 ^ exponent := by
            rw [zpow_add₀ (by norm_num), zpow_natCast]
        _ ≤ mantissa * 2 ^ exponent := by
            gcongr
            exact_mod_cast Nat.log2_self_le positive.ne'
        _ ≤ exact * 2 ^ exponent := by
            gcongr
            exact locates.le
        _ < 2 ^ (1023 : ℤ) := by exact_mod_cast small
    have exponents := (zpow_lt_zpow_iff_right₀ (by norm_num)).mp first
    unfold targetPlace
    omega

/-- A whole number of some place becomes a double by rounding, whatever its size. -/
theorem ordinary_round (sign : Sign) (positive : 0 < mantissa)
    (small : (mantissa : ℚ) * 2 ^ exponent < 2 ^ 1023) :
    ∃ result, Ordinary (UnpackedFloat.round Format.binary64 sign mantissa exponent) result ∧
      Rounded (signed sign (mantissa * 2 ^ exponent)) result := by
  let count := (exponent - targetPlace mantissa exponent).toNat
  have same : ((mantissa <<< count : Nat) : ℚ) * 2 ^ (exponent - count) =
      mantissa * 2 ^ exponent := by
    rw [Nat.shiftLeft_eq, zpow_sub₀ (by norm_num), zpow_natCast]
    push_cast
    field_simp
  have shiftedPositive : 0 < mantissa <<< count := by
    rw [Nat.shiftLeft_eq]
    positivity
  have log : (mantissa <<< count).log2 = mantissa.log2 + count := by
    have least := Nat.log2_self_le positive.ne'
    have greatest := @Nat.lt_log2_self mantissa
    rw [Nat.log2_eq_iff shiftedPositive.ne', Nat.shiftLeft_eq, pow_add, add_right_comm,
      pow_add _ _ count]
    exact ⟨Nat.mul_le_mul_right _ least, Nat.mul_lt_mul_of_pos_right greatest (by positivity)⟩
  have samePlace : targetPlace (mantissa <<< count) (exponent - count) =
      targetPlace mantissa exponent := by
    unfold targetPlace
    rw [log]
    omega
  have exact : Locates (mantissa <<< count) ((mantissa <<< count : Nat) : ℚ) .exact := rfl
  have fits : exponent - count ≤ targetPlace (mantissa <<< count) (exponent - count) := by
    rw [samePlace]
    omega
  unfold UnpackedFloat.round decreaseExponent
  rw [targetExponent_eq, ← same]
  exact ordinary_roundWithAccuracy exact fits (targetPlace_le exact fits (by rwa [same]))

theorem rounded_zero : Rounded 0 0 := by
  refine ⟨-1074, 0, le_rfl, .inl rfl, by rw [Int.cast_zero, zero_mul], ?_⟩
  rw [sub_zero, abs_zero]
  positivity

/-- A double is what it is rounded to. -/
theorem Canonical.rounded (canonical : Canonical mantissa exponent) :
    Rounded (signed sign (mantissa * 2 ^ exponent)) (signed sign (mantissa * 2 ^ exponent)) := by
  refine ⟨exponent, sign.apply mantissa, canonical.least, ?_, signed_mul_eq _ _ _, ?_⟩
  · apply canonical.normal.symm.imp_right
    intro full
    rw [abs_signed (by positivity), add_comm, zpow_add₀ (by norm_num)]
    gcongr
    exact_mod_cast full
  · rw [sub_self, abs_zero]
    positivity

theorem ordinary_normalize {mantissa : Int} (zeroSign : Sign)
    (small : |(mantissa : ℚ) * 2 ^ exponent| < 2 ^ 1023) :
    ∃ result,
      Ordinary (UnpackedFloat.normalize Format.binary64 mantissa exponent zeroSign) result ∧
      Rounded (mantissa * 2 ^ exponent) result := by
  have scale : (0 : ℚ) < 2 ^ exponent := by positivity
  rw [abs_mul, abs_of_pos scale] at small
  unfold UnpackedFloat.normalize
  rcases lt_trichotomy mantissa 0 with negative | rfl | positive
  · have magnitude : (((-mantissa).toNat : Nat) : ℚ) = |(mantissa : ℚ)| := by
      rw [abs_of_neg (by exact_mod_cast negative), ← Int.cast_natCast,
        Int.toNat_of_nonneg (by omega), Int.cast_neg]
    rw [Int.compare_eq_lt.mpr negative]
    have rounds := ordinary_round .negative (by omega : 0 < (-mantissa).toNat)
      (by rwa [magnitude])
    have value : signed .negative ((-mantissa).toNat * 2 ^ exponent) = mantissa * 2 ^ exponent := by
      rw [magnitude, abs_of_neg (by exact_mod_cast negative)]
      exact (neg_mul _ _).symm.trans (by rw [neg_neg])
    rwa [value] at rounds
  · rw [Int.compare_eq_eq.mpr rfl, Int.cast_zero, zero_mul]
    exact ⟨0, .zero zeroSign, rounded_zero⟩
  · have magnitude : ((mantissa.toNat : Nat) : ℚ) = mantissa := by
      rw [← Int.cast_natCast, Int.toNat_of_nonneg positive.le]
    rw [Int.compare_eq_gt.mpr positive]
    have rounds := ordinary_round .positive (by omega : 0 < mantissa.toNat)
      (by rwa [magnitude, ← abs_of_pos (show (0 : ℚ) < mantissa by exact_mod_cast positive)])
    have value : signed .positive (mantissa.toNat * 2 ^ exponent) = mantissa * 2 ^ exponent := by
      rw [magnitude]
      rfl
    rwa [value] at rounds

end Rounding

section Errors

variable {exact result : ℚ}

/-- Rounding is off by half of the last of 53 bits, or by next to nothing. -/
theorem Rounded.abs_sub_le (rounded : Rounded exact result) :
    |result - exact| ≤ |exact| / 2 ^ 53 + 1 / 2 ^ 100 := by
  obtain ⟨place, count, least, normal, _, near⟩ := rounded
  apply near.trans
  rcases normal with rfl | full
  · calc (2 : ℚ) ^ (-1074 : ℤ) / 2
        ≤ 2 ^ (-1074 : ℤ) := half_le_self (by positivity)
      _ ≤ 2 ^ (-100 : ℤ) := zpow_le_zpow_right₀ (by norm_num) (by norm_num)
      _ = 1 / 2 ^ 100 := by norm_num
      _ ≤ |exact| / 2 ^ 53 + 1 / 2 ^ 100 := le_add_of_nonneg_left (by positivity)
  · rw [zpow_add₀ (by norm_num)] at full
    norm_num at full ⊢
    linarith

/-- What is a double already is not changed by rounding. -/
theorem Rounded.eq_of_whole (rounded : Rounded exact result) (place count : ℤ)
    (isExact : exact = count * 2 ^ place) (bits : |count| < 2 ^ 53) (least : -1074 ≤ place) :
    result = exact := by
  obtain ⟨lastPlace, lastCount, notLess, normal, rfl, near⟩ := rounded
  have scale : (0 : ℚ) < 2 ^ lastPlace := by positivity
  have further : lastPlace ≤ place := by
    rcases normal with rfl | full
    · exact least
    · have small : (2 : ℚ) ^ (lastPlace + 52) < 2 ^ (place + 53) := by
        calc (2 : ℚ) ^ (lastPlace + 52) ≤ |exact| := full
          _ = |(count : ℚ)| * 2 ^ place := by
            rw [isExact, abs_mul, abs_of_pos (show (0 : ℚ) < 2 ^ place by positivity)]
          _ < 2 ^ 53 * 2 ^ place := by
            gcongr
            exact_mod_cast bits
          _ = 2 ^ (place + 53) := by
            rw [zpow_add₀ (by norm_num), mul_comm]
            norm_cast
      have := (zpow_lt_zpow_iff_right₀ (by norm_num)).mp small
      omega
  -- both are whole numbers of the last place
  obtain ⟨zeros, rfl⟩ : ∃ zeros : ℕ, place = lastPlace + zeros :=
    ⟨(place - lastPlace).toNat, by omega⟩
  have whole : exact = (count * 2 ^ zeros : ℤ) * 2 ^ lastPlace := by
    rw [isExact, ← two_zpow_mul_pow rfl]
    push_cast
    ring
  rw [whole, ← sub_mul, abs_mul, abs_of_pos scale] at near
  have close : |((lastCount - count * 2 ^ zeros : ℤ) : ℚ)| < 1 := by
    push_cast at near ⊢
    by_contra! far
    nlinarith
  have same : lastCount - count * 2 ^ zeros = 0 :=
    Int.abs_lt_one_iff.mp (by exact_mod_cast close)
  rw [whole, eq_of_sub_eq_zero same]

end Errors

end PaintOrder.Binary64
