import Mathlib.Algebra.Order.Field.Basic
import Mathlib.Algebra.Order.Field.Power
import Mathlib.Data.Rat.Cast.Order
import Mathlib.Tactic.FieldSimp
import Mathlib.Tactic.Linarith
import Mathlib.Tactic.NormNum
import Mathlib.Tactic.Positivity
import Mathlib.Tactic.Ring
import PaintOrder.Geometry.Vector

/-!
# Doubles as numbers

A double that is neither infinite nor undefined stands for a rational number, a signed whole
mantissa times a power of two.  Comparing such doubles is comparing their numbers, because
every double is stored with the largest mantissa that it can have.
-/

namespace PaintOrder.Binary64

open Float.Model Float.Model.UnpackedFloat

/-- A magnitude with a sign. -/
def signed (sign : Sign) (magnitude : ℚ) : ℚ :=
  match sign with
  | .negative => -magnitude
  | .positive => magnitude

section Storage

/-- A mantissa and an exponent as a double has them: there are 53 bits, the first of which is
not zero unless the exponent is the least one. -/
structure Canonical (mantissa : Nat) (exponent : Int) : Prop where
  lt : mantissa < 2 ^ 53
  least : -1074 ≤ exponent
  greatest : exponent ≤ 971
  normal : 2 ^ 52 ≤ mantissa ∨ exponent = -1074

theorem toNat_append_one (fraction : BitVec 52) :
    (1#1 ++ fraction).toNat = 2 ^ 52 + fraction.toNat := by
  rw [BitVec.toNat_append, ← Nat.shiftLeft_add_eq_or_of_lt fraction.isLt]
  rfl

theorem bias_eq : ((Format.binary64.exponentBias : Nat) : Int) + (52 : Nat) = 1075 := by
  decide

theorem canonical_of_unpack {model : Float.Model} {sign : Sign} {mantissa : Nat}
    {exponent : Int} {positive : 0 < mantissa}
    (unpacked : model.unpack = .finite sign mantissa exponent positive) :
    Canonical mantissa exponent := by
  have fractionSmall := (@unpackMantissa Format.binary64 model.toBits.toBitVec).isLt
  have placeSmall := (@unpackExponent Format.binary64 model.toBits.toBitVec).isLt
  unfold Float.Model.unpack UnpackedFloat.unpack at unpacked
  dsimp only at unpacked fractionSmall placeSmall
  rw [bias_eq] at unpacked
  by_cases full : @unpackExponent Format.binary64 model.toBits.toBitVec = -1#11
  · rw [if_pos full] at unpacked
    by_cases undefined : @unpackMantissa Format.binary64 model.toBits.toBitVec = 0#52
    · rw [if_pos undefined] at unpacked
      cases unpacked
    · rw [if_neg undefined] at unpacked
      cases unpacked
  rw [if_neg full] at unpacked
  by_cases zero : @unpackExponent Format.binary64 model.toBits.toBitVec = 0#11
  · rw [if_pos zero] at unpacked
    by_cases nothing : @unpackMantissa Format.binary64 model.toBits.toBitVec = 0#52
    · rw [dif_pos nothing] at unpacked
      cases unpacked
    · rw [dif_neg nothing] at unpacked
      cases unpacked
      rw [zero]
      exact ⟨by omega, by decide, by decide, .inr (by decide)⟩
  · rw [if_neg zero] at unpacked
    cases unpacked
    have notZero : (@unpackExponent Format.binary64 model.toBits.toBitVec).toNat ≠ 0 :=
      fun isZero => zero (BitVec.eq_of_toNat_eq isZero)
    have notFull : (@unpackExponent Format.binary64 model.toBits.toBitVec).toNat ≠ 2047 :=
      fun isFull => full (BitVec.eq_of_toNat_eq isFull)
    rw [toNat_append_one]
    exact ⟨by omega, by omega, by omega, .inl (Nat.le_add_right _ _)⟩

theorem ofBitVec_unpackSign (sign : Sign) (place : BitVec 11) (fraction : BitVec 52) :
    Sign.ofBitVec (unpackSign (packComponents Format.binary64 sign place fraction)) = sign := by
  have stored : unpackSign (packComponents Format.binary64 sign place fraction) =
      sign.toBitVec := by
    change ((sign.toBitVec ++ place ++ fraction).extractLsb' 63 1) = _
    rw [BitVec.extractLsb'_append_eq_of_le (by decide), BitVec.extractLsb'_append_eq_of_le
      (by decide), BitVec.extractLsb'_eq_self]
  rw [stored]
  cases sign <;> rfl

/-- The bits of a number whose exponent is not the least one. -/
theorem unpack_normal (sign : Sign) {place : BitVec 11} (fraction : BitVec 52)
    (notFull : place ≠ -1#11) (notZero : place ≠ 0#11) :
    UnpackedFloat.unpack Format.binary64 (packComponents Format.binary64 sign place fraction) =
      .finite sign (2 ^ 52 + fraction.toNat) (place.toNat - 1075) (by omega) := by
  have samePlace := @unpackExponent_packComponents Format.binary64 sign place fraction
  have sameFraction := @unpackMantissa_packComponents Format.binary64 sign place fraction
  have sameSign := ofBitVec_unpackSign sign place fraction
  generalize packComponents Format.binary64 sign place fraction = bits at *
  subst samePlace sameFraction sameSign
  unfold UnpackedFloat.unpack
  dsimp only
  rw [if_neg notFull, if_neg notZero, finite.injEq]
  exact ⟨rfl, toNat_append_one _, congrArg _ bias_eq⟩

/-- The bits of a number at the least exponent. -/
theorem unpack_subnormal (sign : Sign) {fraction : BitVec 52} (notZero : fraction ≠ 0#52)
    (positive : 0 < fraction.toNat) :
    UnpackedFloat.unpack Format.binary64 (packComponents Format.binary64 sign 0#11 fraction) =
      .finite sign fraction.toNat (-1074) positive := by
  have noPlace := @unpackExponent_packComponents Format.binary64 sign 0#11 fraction
  have sameFraction := @unpackMantissa_packComponents Format.binary64 sign 0#11 fraction
  have sameSign := ofBitVec_unpackSign sign 0#11 fraction
  generalize packComponents Format.binary64 sign 0#11 fraction = bits at *
  subst sameFraction sameSign
  unfold UnpackedFloat.unpack
  dsimp only
  rw [if_neg (by rw [noPlace]; decide), if_pos noPlace, dif_neg notZero, finite.injEq]
  refine ⟨rfl, rfl, ?_⟩
  rw [noPlace]
  decide

/-- The bits that are stored for a number. -/
theorem unpack_pack_finite (sign : Sign) {mantissa : Nat} (exponent : Int)
    (positive : 0 < mantissa) :
    (Float.Model.pack (.finite sign mantissa exponent positive)).unpack =
      UnpackedFloat.unpack Format.binary64
        (if 2 ^ 11 ≤ (exponent + Format.binary64.exponentBias + (52 : Nat)).toNat + 1 then
          packedInfinity Format.binary64 sign
        else if mantissa.log2 + 1 = Format.binary64.mantissaBits then
          packComponents Format.binary64 sign
            (BitVec.ofNat 11 (exponent + Format.binary64.exponentBias + (52 : Nat)).toNat)
            (BitVec.ofNat 52 mantissa)
        else
          packComponents Format.binary64 sign 0#11 (BitVec.ofNat 52 mantissa)) :=
  rfl

/-- A number with all of its 53 bits is stored without the first one. -/
theorem unpack_pack_normal {sign : Sign} {mantissa place : Nat} (positive : 0 < mantissa)
    (full : 2 ^ 52 ≤ mantissa) (lt : mantissa < 2 ^ 53) (least : 1 ≤ place)
    (greatest : place ≤ 2046) :
    (Float.Model.pack (.finite sign mantissa (place - 1075) positive)).unpack =
      .finite sign mantissa (place - 1075) positive := by
  have bias := bias_eq
  have biased : ((place : Int) - 1075 + Format.binary64.exponentBias + (52 : Nat)).toNat =
      place := by omega
  have bits : mantissa.log2 + 1 = Format.binary64.mantissaBits := by
    have := (Nat.log2_eq_iff positive.ne').mpr ⟨full, lt⟩
    change mantissa.log2 + 1 = 53
    omega
  have placed : (BitVec.ofNat 11 place).toNat = place := by
    rw [BitVec.toNat_ofNat, Nat.mod_eq_of_lt (by omega)]
  have notFull : BitVec.ofNat 11 place ≠ -1#11 := by
    intro isFull
    have values := congrArg BitVec.toNat isFull
    rw [placed] at values
    norm_num at values
    omega
  have notZero : BitVec.ofNat 11 place ≠ 0#11 := by
    intro isZero
    have values := congrArg BitVec.toNat isZero
    rw [placed] at values
    norm_num at values
    omega
  have whole : 2 ^ 52 + (BitVec.ofNat 52 mantissa).toNat = mantissa := by
    rw [BitVec.toNat_ofNat]
    omega
  rw [unpack_pack_finite, biased, if_neg (by norm_num; omega), if_pos bits]
  apply (unpack_normal sign _ notFull notZero).trans
  rw [finite.injEq, placed]
  exact ⟨rfl, whole, rfl⟩

/-- A number with fewer bits is stored at the least exponent. -/
theorem unpack_pack_subnormal {sign : Sign} {mantissa : Nat} (positive : 0 < mantissa)
    (lt : mantissa < 2 ^ 52) :
    (Float.Model.pack (.finite sign mantissa (-1074) positive)).unpack =
      .finite sign mantissa (-1074) positive := by
  have bits : mantissa.log2 + 1 ≠ Format.binary64.mantissaBits := by
    have := (Nat.log2_lt positive.ne').mpr lt
    change mantissa.log2 + 1 ≠ 53
    omega
  have held : (BitVec.ofNat 52 mantissa).toNat = mantissa := by
    rw [BitVec.toNat_ofNat, Nat.mod_eq_of_lt lt]
  have notZero : BitVec.ofNat 52 mantissa ≠ 0#52 := by
    intro isZero
    have values := congrArg BitVec.toNat isZero
    rw [held] at values
    norm_num at values
    omega
  rw [unpack_pack_finite, if_neg (by decide), if_neg bits]
  apply (unpack_subnormal sign notZero (by omega)).trans
  rw [finite.injEq]
  exact ⟨rfl, held, rfl⟩

/-- A double that is stored as its mantissa and its exponent is found again. -/
theorem unpack_pack {sign : Sign} {mantissa : Nat} {exponent : Int}
    (canonical : Canonical mantissa exponent) (positive : 0 < mantissa) :
    (Float.Model.pack (.finite sign mantissa exponent positive)).unpack =
      .finite sign mantissa exponent positive := by
  obtain ⟨lt, least, greatest, normal⟩ := canonical
  by_cases full : 2 ^ 52 ≤ mantissa
  · obtain ⟨place, rfl⟩ : ∃ place : Nat, exponent = place - 1075 :=
      ⟨(exponent + 1075).toNat, by omega⟩
    exact unpack_pack_normal positive full lt (by omega) (by omega)
  · obtain rfl : exponent = -1074 := normal.resolve_left full
    exact unpack_pack_subnormal positive (Nat.lt_of_not_le full)

theorem unpack_pack_zero (sign : Sign) :
    (Float.Model.pack (.zero sign)).unpack = .zero sign := by
  cases sign <;> rfl

end Storage

section Values

/-- An unpacked double is an ordinary number, stored as doubles are, with the given value. -/
inductive Ordinary : UnpackedFloat → ℚ → Prop
  | zero (sign : Sign) : Ordinary (.zero sign) 0
  | finite {sign : Sign} {mantissa : Nat} {exponent : Int} (canonical : Canonical mantissa exponent)
      (positive : 0 < mantissa) :
      Ordinary (.finite sign mantissa exponent positive) (signed sign (mantissa * 2 ^ exponent))

/-- A double is an ordinary number with the given value. -/
def Denotes (number : Float) (value : ℚ) : Prop :=
  Ordinary number.toModel.unpack value

variable {unpacked other : UnpackedFloat} {value otherValue : ℚ}

theorem Ordinary.unpack_pack (ordinary : Ordinary unpacked value) :
    (Float.Model.pack unpacked).unpack = unpacked := by
  cases ordinary with
  | zero sign => exact unpack_pack_zero sign
  | finite canonical positive => exact Binary64.unpack_pack canonical positive

/-- What is computed in unpacked form is packed without loss. -/
theorem Ordinary.denotes (ordinary : Ordinary unpacked value) :
    Denotes (.ofModel (.pack unpacked)) value := by
  unfold Denotes
  rwa [ordinary.unpack_pack]

/-- To see that a double is an ordinary number, unpack it. -/
theorem denotes_of_unpack {number : Float} {sign : Sign} {mantissa : Nat} {exponent : Int}
    {positive : 0 < mantissa}
    (isUnpacked : number.toModel.unpack = .finite sign mantissa exponent positive) :
    Denotes number (signed sign (mantissa * 2 ^ exponent)) := by
  unfold Denotes
  rw [isUnpacked]
  exact .finite (canonical_of_unpack isUnpacked) positive

theorem signed_neg (sign : Sign) (magnitude : ℚ) :
    signed (-sign) magnitude = -signed sign magnitude := by
  cases sign
  · exact (neg_neg magnitude).symm
  · rfl

theorem abs_signed {sign : Sign} {magnitude : ℚ} (nonneg : 0 ≤ magnitude) :
    |signed sign magnitude| = magnitude := by
  cases sign
  · exact (abs_neg magnitude).trans (abs_of_nonneg nonneg)
  · exact abs_of_nonneg nonneg

theorem Ordinary.neg (ordinary : Ordinary unpacked value) : Ordinary unpacked.neg (-value) := by
  cases ordinary with
  | zero sign =>
      rw [neg_zero]
      exact .zero (-sign)
  | finite canonical positive =>
      rw [← signed_neg]
      exact .finite canonical positive

theorem Denotes.neg {number : Float} (denotes : Denotes number value) :
    Denotes (-number) (-value) :=
  (Ordinary.neg denotes).denotes

theorem Ordinary.abs (ordinary : Ordinary unpacked value) : Ordinary unpacked.abs |value| := by
  cases ordinary with
  | zero sign =>
      rw [abs_zero]
      exact .zero .positive
  | finite canonical positive =>
      rw [abs_signed (by positivity)]
      exact .finite canonical positive

theorem Denotes.abs {number : Float} (denotes : Denotes number value) :
    Denotes number.abs |value| :=
  (Ordinary.abs denotes).denotes

end Values

section Order

/-- With a smaller exponent a magnitude is smaller, whatever the mantissas are. -/
theorem Canonical.lt_of_exponent_lt {mantissa otherMantissa : Nat} {exponent otherExponent : Int}
    (canonical : Canonical mantissa exponent)
    (otherCanonical : Canonical otherMantissa otherExponent)
    (smaller : exponent < otherExponent) :
    (mantissa * 2 ^ exponent : ℚ) < otherMantissa * 2 ^ otherExponent := by
  have full : 2 ^ 52 ≤ otherMantissa :=
    otherCanonical.normal.resolve_right fun least => by
      have := canonical.least
      omega
  calc (mantissa * 2 ^ exponent : ℚ)
      < 2 ^ 53 * 2 ^ exponent := by
        gcongr
        exact_mod_cast canonical.lt
    _ = 2 ^ 52 * 2 ^ (exponent + 1) := by
        rw [zpow_add_one₀ (by norm_num)]
        ring
    _ ≤ otherMantissa * 2 ^ otherExponent := by
        gcongr
        · exact_mod_cast full
        · norm_num
        · omega

/-- Magnitudes are compared by their exponents and then by their mantissas. -/
theorem compare_magnitudes {mantissa otherMantissa : Nat} {exponent otherExponent : Int}
    (canonical : Canonical mantissa exponent)
    (otherCanonical : Canonical otherMantissa otherExponent) :
    (compare exponent otherExponent).then (compare mantissa otherMantissa) =
      cmp (mantissa * 2 ^ exponent : ℚ) (otherMantissa * 2 ^ otherExponent) := by
  rcases lt_trichotomy exponent otherExponent with smaller | rfl | greater
  · rw [Int.compare_eq_lt.mpr smaller,
      (cmp_eq_lt_iff _ _).mpr (canonical.lt_of_exponent_lt otherCanonical smaller)]
    rfl
  · have scale : (0 : ℚ) < 2 ^ exponent := by positivity
    rw [Int.compare_eq_eq.mpr rfl, Ordering.eq_then]
    rcases lt_trichotomy mantissa otherMantissa with smaller | rfl | greater
    · rw [Nat.compare_eq_lt.mpr smaller, eq_comm, cmp_eq_lt_iff]
      gcongr
    · rw [Nat.compare_eq_eq.mpr rfl, cmp_self_eq_eq]
    · rw [Nat.compare_eq_gt.mpr greater, eq_comm, cmp_eq_gt_iff]
      gcongr
  · rw [Int.compare_eq_gt.mpr greater,
      (cmp_eq_gt_iff _ _).mpr (otherCanonical.lt_of_exponent_lt canonical greater)]
    rfl

variable {unpacked other : UnpackedFloat} {value otherValue : ℚ}

/-- Ordinary doubles are compared as their numbers are. -/
theorem Ordinary.compare_eq (ordinary : Ordinary unpacked value)
    (otherOrdinary : Ordinary other otherValue) :
    unpacked.compare other = some (cmp value otherValue) := by
  cases ordinary with
  | zero sign =>
      cases otherOrdinary with
      | zero otherSign =>
          rw [cmp_self_eq_eq]
          rfl
      | @finite otherSign otherMantissa otherExponent otherCanonical otherPositive =>
          have magnitude : (0 : ℚ) < otherMantissa * 2 ^ otherExponent := by positivity
          cases otherSign
          · exact congrArg some ((cmp_eq_gt_iff _ _).mpr (neg_lt_zero.mpr magnitude)).symm
          · exact congrArg some ((cmp_eq_lt_iff _ _).mpr magnitude).symm
  | @finite sign mantissa exponent canonical positive =>
      have magnitude : (0 : ℚ) < mantissa * 2 ^ exponent := by positivity
      cases otherOrdinary with
      | zero otherSign =>
          cases sign
          · exact congrArg some ((cmp_eq_lt_iff _ _).mpr (neg_lt_zero.mpr magnitude)).symm
          · exact congrArg some ((cmp_eq_gt_iff _ _).mpr magnitude).symm
      | @finite otherSign otherMantissa otherExponent otherCanonical otherPositive =>
          have otherMagnitude : (0 : ℚ) < otherMantissa * 2 ^ otherExponent := by positivity
          have magnitudes := compare_magnitudes canonical otherCanonical
          cases sign <;> cases otherSign
          · have negated : StrictAnti fun magnitude : ℚ => -magnitude := fun _ _ => neg_lt_neg
            have swapped := congrArg Ordering.swap magnitudes
            rw [cmp_swap, ← negated.cmp_map_eq] at swapped
            exact congrArg some swapped
          · exact congrArg some ((cmp_eq_lt_iff _ _).mpr
              ((neg_lt_zero.mpr magnitude).trans otherMagnitude)).symm
          · exact congrArg some ((cmp_eq_gt_iff _ _).mpr
              ((neg_lt_zero.mpr otherMagnitude).trans magnitude)).symm
          · exact congrArg some magnitudes

variable {number another : Float}

theorem Denotes.lt_iff (denotes : Denotes number value)
    (otherDenotes : Denotes another otherValue) : number < another ↔ value < otherValue := by
  have compared : number < another ↔
      (number.toModel.unpack.compare another.toModel.unpack == some .lt) = true := by
    change decide (number.toModel < another.toModel) = true ↔ _
    rw [decide_eq_true_iff]
    rfl
  rw [compared, Ordinary.compare_eq denotes otherDenotes, ← cmp_eq_lt_iff, beq_iff_eq,
    Option.some.injEq]

theorem Denotes.le_iff (denotes : Denotes number value)
    (otherDenotes : Denotes another otherValue) : number ≤ another ↔ value ≤ otherValue := by
  have compared : number ≤ another ↔
      (number.toModel.unpack.compare another.toModel.unpack).any (·.isLE) = true := by
    change decide (number.toModel ≤ another.toModel) = true ↔ _
    rw [decide_eq_true_iff]
    rfl
  rw [compared, Ordinary.compare_eq denotes otherDenotes, Option.any_some,
    Ordering.isLE_iff_ne_gt, cmp_eq_gt_iff, not_lt]

end Order

end PaintOrder.Binary64
