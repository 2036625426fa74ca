import PaintOrder.Proofs.Binary64.Nearest

/-!
# Arithmetic of doubles

The sum, the difference, the product and the quotient of ordinary doubles are the exact results
rounded, as long as these are not too large to be a double.  A result that is a double is exact.
For results up to some size there is one bound on the error of every operation.
-/

namespace PaintOrder.Binary64

open Float.Model Float.Model.UnpackedFloat

section Unpacked

variable {unpacked other : UnpackedFloat} {value otherValue : ℚ}

theorem Ordinary.rounded (ordinary : Ordinary unpacked value) : Rounded value value := by
  cases ordinary with
  | zero sign => exact rounded_zero
  | finite canonical positive => exact canonical.rounded

/-- A smaller exponent makes a mantissa larger and changes no value. -/
theorem decreaseExponent_value (sign : Sign) (mantissa : Nat) {exponent target : Int}
    (le : target ≤ exponent) :
    ((sign.apply (decreaseExponent mantissa exponent target).1 : ℤ) : ℚ) * 2 ^ target =
      signed sign (mantissa * 2 ^ exponent) := by
  obtain ⟨count, rfl⟩ : ∃ count : ℕ, exponent = target + count :=
    ⟨(exponent - target).toNat, by omega⟩
  have isCount : (target + count - target).toNat = count := by omega
  unfold decreaseExponent
  dsimp only
  rw [← signed_mul_eq, isCount, Nat.shiftLeft_eq, ← two_zpow_mul_pow rfl]
  push_cast
  rw [mul_assoc]

theorem Ordinary.add (ordinary : Ordinary unpacked value)
    (otherOrdinary : Ordinary other otherValue) (small : |value + otherValue| < 2 ^ 1023) :
    ∃ result, Ordinary (UnpackedFloat.add Format.binary64 unpacked other) result ∧
      Rounded (value + otherValue) result := by
  cases ordinary with
  | zero sign =>
      rw [zero_add]
      cases otherOrdinary with
      | zero otherSign =>
          refine ⟨0, ?_, rounded_zero⟩
          cases sign <;> cases otherSign <;> exact .zero _
      | finite canonical positive => exact ⟨_, .finite canonical positive, canonical.rounded⟩
  | @finite sign mantissa exponent canonical positive =>
      cases otherOrdinary with
      | zero otherSign =>
          rw [add_zero]
          exact ⟨_, .finite canonical positive, canonical.rounded⟩
      | @finite otherSign otherMantissa otherExponent otherCanonical otherPositive =>
          have first := decreaseExponent_value sign mantissa (min_le_left exponent otherExponent)
          have second := decreaseExponent_value otherSign otherMantissa
            (min_le_right exponent otherExponent)
          have sum := congrArg₂ (· + ·) first second
          simp only [← add_mul, ← Int.cast_add] at sum
          rw [← sum] at small ⊢
          exact ordinary_normalize .positive small

/-- Taking away a double is adding its opposite. -/
theorem unpacked_sub_eq (unpacked other : UnpackedFloat) :
    UnpackedFloat.sub Format.binary64 unpacked other =
      UnpackedFloat.add Format.binary64 unpacked other.neg := by
  cases unpacked <;> cases other <;> try rfl
  rename_i sign mantissa exponent positive otherSign otherMantissa otherExponent otherPositive
  cases otherSign
  · exact congrArg (normalize Format.binary64 · _ _) (sub_neg_eq_add _ _)
  · exact congrArg (normalize Format.binary64 · _ _) (sub_eq_add_neg _ _)

theorem Ordinary.sub (ordinary : Ordinary unpacked value)
    (otherOrdinary : Ordinary other otherValue) (small : |value - otherValue| < 2 ^ 1023) :
    ∃ result, Ordinary (UnpackedFloat.sub Format.binary64 unpacked other) result ∧
      Rounded (value - otherValue) result := by
  rw [sub_eq_add_neg value] at small ⊢
  rw [unpacked_sub_eq]
  exact ordinary.add otherOrdinary.neg small

theorem sign_mul_comm (sign otherSign : Sign) : sign * otherSign = otherSign * sign := by
  cases sign <;> cases otherSign <;> rfl

theorem unpacked_mul_comm (unpacked other : UnpackedFloat) :
    UnpackedFloat.mul Format.binary64 unpacked other =
      UnpackedFloat.mul Format.binary64 other unpacked := by
  cases unpacked with
  | notANumber => cases other <;> rfl
  | infinity sign =>
      cases other with
      | notANumber => rfl
      | zero otherSign => rfl
      | infinity otherSign => exact congrArg UnpackedFloat.infinity (sign_mul_comm _ _)
      | finite otherSign => exact congrArg UnpackedFloat.infinity (sign_mul_comm _ _)
  | zero sign =>
      cases other with
      | notANumber => rfl
      | infinity otherSign => rfl
      | zero otherSign => exact congrArg UnpackedFloat.zero (sign_mul_comm _ _)
      | finite otherSign => exact congrArg UnpackedFloat.zero (sign_mul_comm _ _)
  | finite sign mantissa exponent =>
      cases other with
      | notANumber => rfl
      | infinity otherSign => exact congrArg UnpackedFloat.infinity (sign_mul_comm _ _)
      | zero otherSign => exact congrArg UnpackedFloat.zero (sign_mul_comm _ _)
      | finite otherSign otherMantissa otherExponent =>
          change roundWithAccuracy Format.binary64 (sign * otherSign)
            (mantissa * otherMantissa) (exponent + otherExponent) .exact = _
          rw [sign_mul_comm, Nat.mul_comm, Int.add_comm]
          rfl

theorem signed_mul (sign otherSign : Sign) (magnitude otherMagnitude : ℚ) :
    signed (sign * otherSign) (magnitude * otherMagnitude) =
      signed sign magnitude * signed otherSign otherMagnitude := by
  cases sign <;> cases otherSign
  · exact (neg_mul_neg _ _).symm
  · exact (neg_mul _ _).symm
  · exact (mul_neg _ _).symm
  · rfl

theorem signed_div (sign otherSign : Sign) (magnitude otherMagnitude : ℚ) :
    signed (sign / otherSign) (magnitude / otherMagnitude) =
      signed sign magnitude / signed otherSign otherMagnitude := by
  cases sign <;> cases otherSign
  · exact (neg_div_neg_eq _ _).symm
  · exact (neg_div _ _).symm
  · exact (div_neg _).symm
  · rfl

/-- A mantissa with 53 bits or more does not have to be shifted to the left. -/
theorem le_targetPlace {mantissa : Nat} {exponent : Int}
    (full : 2 ^ 52 ≤ mantissa ∨ exponent ≤ -1074) : exponent ≤ targetPlace mantissa exponent := by
  unfold targetPlace
  rcases full with full | least
  · have bits : 52 ≤ mantissa.log2 := (Nat.le_log2 (by omega)).mpr full
    omega
  · omega

theorem Ordinary.mul (ordinary : Ordinary unpacked value)
    (otherOrdinary : Ordinary other otherValue) (small : |value * otherValue| < 2 ^ 1023) :
    ∃ result, Ordinary (UnpackedFloat.mul Format.binary64 unpacked other) result ∧
      Rounded (value * otherValue) result := by
  cases ordinary with
  | zero sign =>
      rw [zero_mul]
      cases otherOrdinary with
      | zero otherSign => exact ⟨0, .zero _, rounded_zero⟩
      | finite canonical positive => exact ⟨0, .zero _, rounded_zero⟩
  | @finite sign mantissa exponent canonical positive =>
      cases otherOrdinary with
      | zero otherSign =>
          rw [mul_zero]
          exact ⟨0, .zero _, rounded_zero⟩
      | @finite otherSign otherMantissa otherExponent otherCanonical otherPositive =>
          have product : ((mantissa * otherMantissa : Nat) : ℚ) * 2 ^ (exponent + otherExponent) =
              mantissa * 2 ^ exponent * (otherMantissa * 2 ^ otherExponent) := by
            rw [zpow_add₀ (by norm_num)]
            push_cast
            ring
          have exact : Locates (mantissa * otherMantissa) ((mantissa * otherMantissa : Nat) : ℚ)
              .exact := rfl
          have fits : exponent + otherExponent ≤
              targetPlace (mantissa * otherMantissa) (exponent + otherExponent) := by
            apply le_targetPlace
            rcases canonical.normal with full | least
            · exact .inl (full.trans (Nat.le_mul_of_pos_right _ otherPositive))
            · rcases otherCanonical.normal with full | otherLeast
              · exact .inl (full.trans (Nat.le_mul_of_pos_left _ positive))
              · right
                omega
          rw [← signed_mul, ← product] at small ⊢
          rw [abs_signed (by positivity)] at small
          exact ordinary_roundWithAccuracy exact fits (targetPlace_le exact fits small)

/-- The rest of a division tells on which side of a half the exact quotient is. -/
theorem locates_div (dividend : Nat) {divisor : Nat} (positive : 0 < divisor) :
    Locates (dividend / divisor) (dividend / divisor : ℚ)
      (accuracyOfFraction (dividend % divisor) divisor) := by
  have scale : (0 : ℚ) < divisor := by exact_mod_cast positive
  have whole : (dividend : ℚ) =
      divisor * (dividend / divisor : Nat) + (dividend % divisor : Nat) := by
    exact_mod_cast (Nat.div_add_mod dividend divisor).symm
  have split : (dividend / divisor : ℚ) =
      (dividend / divisor : Nat) + (dividend % divisor : Nat) / (divisor : ℚ) := by
    rw [div_eq_iff scale.ne', add_mul, div_mul_cancel₀ _ scale.ne', mul_comm]
    exact whole
  rw [split]
  have below : ((dividend % divisor : Nat) : ℚ) / divisor < 1 := by
    rw [div_lt_one scale]
    exact_mod_cast Nat.mod_lt _ positive
  unfold accuracyOfFraction
  split_ifs with noRest
  · rw [noRest, Nat.cast_zero, zero_div, add_zero]
    rfl
  · have rest : (0 : ℚ) < (dividend % divisor : Nat) / divisor := by
      have : 0 < dividend % divisor := Nat.pos_of_ne_zero noRest
      positivity
    rcases lt_trichotomy (2 * (dividend % divisor)) divisor with less | half | more
    · rw [Nat.compare_eq_lt.mpr less]
      have less : 2 * ((dividend % divisor : Nat) : ℚ) < divisor := by exact_mod_cast less
      have less : ((dividend % divisor : Nat) : ℚ) / divisor < 1 / 2 := by
        rw [div_lt_iff₀ scale]
        linarith
      constructor <;> linarith
    · rw [Nat.compare_eq_eq.mpr half]
      have half : 2 * ((dividend % divisor : Nat) : ℚ) = divisor := by exact_mod_cast half
      have half : ((dividend % divisor : Nat) : ℚ) / divisor = 1 / 2 := by
        rw [div_eq_iff scale.ne']
        linarith
      exact congrArg _ half
    · rw [Nat.compare_eq_gt.mpr more]
      have more : (divisor : ℚ) < 2 * (dividend % divisor : Nat) := by exact_mod_cast more
      have more : 1 / 2 < ((dividend % divisor : Nat) : ℚ) / divisor := by
        rw [lt_div_iff₀ scale]
        linarith
      constructor <;> linarith

/-- A quotient is computed to 53 bits before it is rounded, or to the least place. -/
theorem divCore_spec {mantissa otherMantissa : Nat} (exponent otherExponent : Int)
    (positive : 0 < mantissa) (otherPositive : 0 < otherMantissa) :
    let (quotient, place, accuracy) :=
      divCore Format.binary64 mantissa exponent otherMantissa otherExponent
    ∃ exact : ℚ, Locates quotient exact accuracy ∧ place ≤ targetPlace quotient place ∧
      exact * 2 ^ place = mantissa * 2 ^ exponent / (otherMantissa * 2 ^ otherExponent) := by
  unfold divCore
  dsimp only
  generalize isPlace : min (exponent - otherExponent) _ = place
  obtain ⟨count, isCount⟩ : ∃ count : Nat, exponent - otherExponent = place + count :=
    ⟨(exponent - otherExponent - place).toNat, by omega⟩
  have shifted : (exponent - otherExponent - place).toNat = count := by omega
  rw [shifted, Nat.shiftLeft_eq]
  use ((mantissa * 2 ^ count : Nat) : ℚ) / otherMantissa
  refine ⟨locates_div _ otherPositive, le_targetPlace ?_, ?_⟩
  · by_cases least : place ≤ -1074
    · exact .inr least
    · left
      have bits : otherMantissa.log2 + 53 ≤ mantissa.log2 + count := by
        have place_le : place ≤ mantissa.log2 + 1 + exponent - (otherMantissa.log2 + 1 +
            otherExponent) - 53 := by
          have bits : (Format.binary64.mantissaBits : Int) = 53 := by decide
          have minimal : Format.binary64.minExponent = -1074 := by decide
          unfold Format.targetExponent totalExponent at isPlace
          rw [bits, minimal] at isPlace
          omega
        omega
      rw [Nat.le_div_iff_mul_le otherPositive]
      calc 2 ^ 52 * otherMantissa ≤ 2 ^ 52 * 2 ^ (otherMantissa.log2 + 1) :=
            Nat.mul_le_mul_left _ Nat.lt_log2_self.le
        _ = 2 ^ (otherMantissa.log2 + 53) := by
            rw [← pow_add]
            congr 1
            omega
        _ ≤ 2 ^ (mantissa.log2 + count) := Nat.pow_le_pow_right (by norm_num) bits
        _ = 2 ^ mantissa.log2 * 2 ^ count := pow_add _ _ _
        _ ≤ mantissa * 2 ^ count :=
            Nat.mul_le_mul_right _ (Nat.log2_self_le positive.ne')
  · have exponents : (2 : ℚ) ^ count * 2 ^ place = 2 ^ exponent / 2 ^ otherExponent := by
      rw [two_zpow_mul_pow (rfl : place + (count : Int) = place + count), ← isCount, zpow_sub₀ (by norm_num)]
    push_cast
    rw [mul_div_right_comm, mul_assoc, exponents, div_mul_div_comm]

theorem Ordinary.div (ordinary : Ordinary unpacked value)
    (otherOrdinary : Ordinary other otherValue) (notZero : otherValue ≠ 0)
    (small : |value / otherValue| < 2 ^ 1023) :
    ∃ result, Ordinary (UnpackedFloat.div Format.binary64 unpacked other) result ∧
      Rounded (value / otherValue) result := by
  cases otherOrdinary with
  | zero otherSign => exact absurd rfl notZero
  | @finite otherSign otherMantissa otherExponent otherCanonical otherPositive =>
      cases ordinary with
      | zero sign =>
          rw [zero_div]
          exact ⟨0, .zero _, rounded_zero⟩
      | @finite sign mantissa exponent canonical positive =>
          obtain ⟨exact, locates, fits, quotient⟩ :=
            divCore_spec exponent otherExponent positive otherPositive
          rw [← signed_div, ← quotient] at small ⊢
          have nonneg : 0 ≤ exact := (Nat.cast_nonneg _).trans locates.le
          rw [abs_signed (by positivity)] at small
          exact ordinary_roundWithAccuracy locates fits (targetPlace_le locates fits small)

end Unpacked

section Doubles

variable {number another : Float} {value otherValue : ℚ}

theorem Denotes.add (denotes : Denotes number value) (otherDenotes : Denotes another otherValue)
    (small : |value + otherValue| < 2 ^ 1023) :
    ∃ result, Denotes (number + another) result ∧ Rounded (value + otherValue) result := by
  obtain ⟨result, ordinary, rounded⟩ := Ordinary.add denotes otherDenotes small
  exact ⟨result, ordinary.denotes, rounded⟩

theorem Denotes.sub (denotes : Denotes number value) (otherDenotes : Denotes another otherValue)
    (small : |value - otherValue| < 2 ^ 1023) :
    ∃ result, Denotes (number - another) result ∧ Rounded (value - otherValue) result := by
  obtain ⟨result, ordinary, rounded⟩ := Ordinary.sub denotes otherDenotes small
  exact ⟨result, ordinary.denotes, rounded⟩

theorem Denotes.mul (denotes : Denotes number value) (otherDenotes : Denotes another otherValue)
    (small : |value * otherValue| < 2 ^ 1023) :
    ∃ result, Denotes (number * another) result ∧ Rounded (value * otherValue) result := by
  obtain ⟨result, ordinary, rounded⟩ := Ordinary.mul denotes otherDenotes small
  exact ⟨result, ordinary.denotes, rounded⟩

theorem Denotes.div (denotes : Denotes number value) (otherDenotes : Denotes another otherValue)
    (notZero : otherValue ≠ 0) (small : |value / otherValue| < 2 ^ 1023) :
    ∃ result, Denotes (number / another) result ∧ Rounded (value / otherValue) result := by
  obtain ⟨result, ordinary, rounded⟩ := Ordinary.div denotes otherDenotes notZero small
  exact ⟨result, ordinary.denotes, rounded⟩

/-- The factors of any product of doubles can be exchanged. -/
theorem product_comm (number another : Float) : number * another = another * number :=
  congrArg (fun unpacked => Float.ofModel (pack unpacked)) (unpacked_mul_comm _ _)

/-- A whole number of at most 53 bits is a double. -/
theorem denotes_toFloat (number : UInt64) (bits : number.toNat < 2 ^ 53) :
    Denotes number.toFloat number.toNat := by
  have small : |((number.toNat : ℤ) : ℚ) * 2 ^ (0 : ℤ)| < 2 ^ 1023 := by
    rw [zpow_zero, mul_one, Int.cast_natCast, abs_of_nonneg (Nat.cast_nonneg _)]
    calc (number.toNat : ℚ) < 2 ^ 53 := by exact_mod_cast bits
      _ ≤ 2 ^ 1023 := pow_le_pow_right₀ (by norm_num) (by norm_num)
  obtain ⟨result, ordinary, rounded⟩ := ordinary_normalize .positive small
  rw [rounded.eq_of_whole 0 number.toNat rfl (by rw [Nat.abs_cast]; exact_mod_cast bits) (by norm_num), zpow_zero,
    mul_one, Int.cast_natCast] at ordinary
  exact ordinary.denotes

end Doubles

section Exact

variable {number another : Float} {value otherValue : ℚ}

/-- A number that is a double: 53 bits, the last of which has a place. -/
def Storable (value : ℚ) : Prop :=
  ∃ place count : ℤ, -1074 ≤ place ∧ place ≤ 970 ∧ |count| < 2 ^ 53 ∧ value = count * 2 ^ place

theorem storable_of_eq_div (count : ℤ) (places : ℕ) (isExact : value = count / 2 ^ places)
    (bits : |count| < 2 ^ 53) (few : places ≤ 1074) : Storable value := by
  refine ⟨-places, count, by omega, by omega, bits, ?_⟩
  rw [isExact, zpow_neg, zpow_natCast, div_eq_mul_inv]

theorem Storable.lt_largest (storable : Storable value) : |value| < 2 ^ 1023 := by
  obtain ⟨place, count, _, greatest, bits, rfl⟩ := storable
  have scale : (0 : ℚ) < 2 ^ place := by positivity
  calc |(count : ℚ) * 2 ^ place| = |(count : ℚ)| * 2 ^ place := by
        rw [abs_mul, abs_of_pos scale]
    _ < 2 ^ 53 * 2 ^ place := by
        gcongr
        exact_mod_cast bits
    _ ≤ 2 ^ 53 * 2 ^ (970 : ℤ) := by
        gcongr
        norm_num
    _ = 2 ^ 1023 := by rw [zpow_ofNat, ← pow_add]

theorem Rounded.eq_of_storable {exact result : ℚ} (rounded : Rounded exact result)
    (storable : Storable exact) : result = exact := by
  obtain ⟨place, count, least, _, bits, isExact⟩ := storable
  exact rounded.eq_of_whole place count isExact bits least

theorem Denotes.add_exact (denotes : Denotes number value)
    (otherDenotes : Denotes another otherValue) (storable : Storable (value + otherValue)) :
    Denotes (number + another) (value + otherValue) := by
  obtain ⟨result, isResult, rounded⟩ := denotes.add otherDenotes storable.lt_largest
  rwa [rounded.eq_of_storable storable] at isResult

theorem Denotes.sub_exact (denotes : Denotes number value)
    (otherDenotes : Denotes another otherValue) (storable : Storable (value - otherValue)) :
    Denotes (number - another) (value - otherValue) := by
  obtain ⟨result, isResult, rounded⟩ := denotes.sub otherDenotes storable.lt_largest
  rwa [rounded.eq_of_storable storable] at isResult

theorem Denotes.mul_exact (denotes : Denotes number value)
    (otherDenotes : Denotes another otherValue) (storable : Storable (value * otherValue)) :
    Denotes (number * another) (value * otherValue) := by
  obtain ⟨result, isResult, rounded⟩ := denotes.mul otherDenotes storable.lt_largest
  rwa [rounded.eq_of_storable storable] at isResult

theorem Denotes.div_exact (denotes : Denotes number value)
    (otherDenotes : Denotes another otherValue) (notZero : otherValue ≠ 0)
    (storable : Storable (value / otherValue)) :
    Denotes (number / another) (value / otherValue) := by
  obtain ⟨result, isResult, rounded⟩ := denotes.div otherDenotes notZero storable.lt_largest
  rwa [rounded.eq_of_storable storable] at isResult

end Exact

section Bounds

variable {number another : Float} {value otherValue : ℚ}

theorem abs_le_of_near {exact error : ℚ} (near : |value - exact| ≤ error) :
    |value| ≤ |exact| + error := by
  have := abs_sub_abs_le_abs_sub value exact
  linarith

/-- The error of one operation, for results up to some size that is not next to nothing. -/
theorem Rounded.near {exact result size : ℚ} (rounded : Rounded exact result) (bound : |exact| ≤ size)
    (notTiny : 1 / 2 ^ 40 ≤ size) : |result - exact| ≤ size / 2 ^ 52 := by
  have error := rounded.abs_sub_le
  linarith

theorem lt_largest_of_le {size : ℚ} (bound : value ≤ size) (notHuge : size ≤ 2 ^ 100) :
    value < 2 ^ 1023 :=
  (bound.trans notHuge).trans_lt (pow_lt_pow_right₀ (by norm_num) (by norm_num))

theorem Denotes.add_near (denotes : Denotes number value)
    (otherDenotes : Denotes another otherValue) (size : ℚ) (bound : |value + otherValue| ≤ size)
    (notTiny : 1 / 2 ^ 40 ≤ size) (notHuge : size ≤ 2 ^ 100) :
    ∃ result, Denotes (number + another) result ∧
      |result - (value + otherValue)| ≤ size / 2 ^ 52 := by
  obtain ⟨result, isResult, rounded⟩ := denotes.add otherDenotes (lt_largest_of_le bound notHuge)
  exact ⟨result, isResult, rounded.near bound notTiny⟩

theorem Denotes.mul_near (denotes : Denotes number value)
    (otherDenotes : Denotes another otherValue) (size : ℚ) (bound : |value * otherValue| ≤ size)
    (notTiny : 1 / 2 ^ 40 ≤ size) (notHuge : size ≤ 2 ^ 100) :
    ∃ result, Denotes (number * another) result ∧
      |result - value * otherValue| ≤ size / 2 ^ 52 := by
  obtain ⟨result, isResult, rounded⟩ := denotes.mul otherDenotes (lt_largest_of_le bound notHuge)
  exact ⟨result, isResult, rounded.near bound notTiny⟩

/-- A quotient solves its equation almost exactly, unless the divisor is next to nothing. -/
theorem Denotes.div_near (denotes : Denotes number value)
    (otherDenotes : Denotes another otherValue) (size : ℚ) (bound : |value| ≤ size)
    (otherBound : |otherValue| ≤ size) (notSmall : 1 / 2 ^ 52 ≤ |otherValue|)
    (notHuge : size ≤ 2 ^ 40) :
    ∃ result, Denotes (number / another) result ∧
      |otherValue * result - value| ≤ size / 2 ^ 52 := by
  have positive : 0 < |otherValue| := lt_of_lt_of_le (by norm_num) notSmall
  have notZero : otherValue ≠ 0 := abs_pos.mp positive
  have quotient : |value / otherValue| ≤ 2 ^ 100 := by
    rw [abs_div, div_le_iff₀ positive]
    linarith
  obtain ⟨result, isResult, rounded⟩ :=
    denotes.div otherDenotes notZero (lt_largest_of_le quotient le_rfl)
  use result, isResult
  have solved : otherValue * result - value = otherValue * (result - value / otherValue) := by
    field_simp
  calc |otherValue * result - value|
      = |otherValue| * |result - value / otherValue| := by rw [solved, abs_mul]
    _ ≤ |otherValue| * (|value / otherValue| / 2 ^ 53 + 1 / 2 ^ 100) := by
        gcongr
        exact rounded.abs_sub_le
    _ = |value| / 2 ^ 53 + |otherValue| / 2 ^ 100 := by
        rw [abs_div]
        field_simp
    _ ≤ size / 2 ^ 52 := by linarith

theorem denotes_zero : Denotes 0 0 :=
  Ordinary.zero .positive

theorem denotes_one : Denotes 1 1 := by
  have unpacked : (1 : Float).toModel.unpack = .finite .positive (2 ^ 52) (-52) (by decide) := rfl
  have denotes := denotes_of_unpack unpacked
  unfold signed at denotes
  norm_num at denotes
  exact denotes

theorem denotes_two : Denotes 2 2 := by
  have unpacked : (2 : Float).toModel.unpack = .finite .positive (2 ^ 52) (-51) (by decide) := rfl
  have denotes := denotes_of_unpack unpacked
  unfold signed at denotes
  norm_num at denotes
  exact denotes

theorem denotes_steps : Denotes 65536 65536 := by
  have unpacked : (65536 : Float).toModel.unpack = .finite .positive (2 ^ 52) (-36) (by decide) :=
    rfl
  have denotes := denotes_of_unpack unpacked
  unfold signed at denotes
  norm_num at denotes
  exact denotes

end Bounds

end PaintOrder.Binary64
