/-!
# Rounding doubles to whole numbers

A double is unpacked into a sign, a mantissa and a binary exponent, and every step
after that is exact integer arithmetic.  A whole number is reached by rounding to the
nearest one, a half going away from zero, and is then clamped to 32 bits.  The module
also gives the key under which doubles are totally ordered, negative zero before
positive zero.
-/

namespace PaintOrder.Binary64

open Float.Model.UnpackedFloat (Sign)

/-- The whole number nearest to `mantissa * 2 ^ exponent`, a half going up. -/
def roundMagnitude (mantissa : Nat) : Int → Nat
  | .ofNat shift => mantissa <<< shift
  | .negSucc shift => (mantissa + 1 <<< shift) >>> (shift + 1)

def clampInt32 (number : Int) : Int32 :=
  Int32.ofInt (max (-2147483648) (min 2147483647 number))

/-- The 32-bit number nearest to a double, a half going away from zero.  Anything out of
range gives the end of the range on its side, and a double that is no number gives zero. -/
def nearestInt32 (number : Float) : Int32 :=
  match number.toModel.unpack with
  | .notANumber => 0
  | .infinity .positive => Int32.maxValue
  | .infinity .negative => Int32.minValue
  | .zero _ => 0
  | .finite sign mantissa exponent _ =>
      clampInt32 (sign.apply (roundMagnitude mantissa exponent))

/-- The place of a double in the total order of doubles: of two ordinary numbers the
smaller has the smaller key, and negative zero comes just before positive zero. -/
def orderKey (number : Float) : Int :=
  let bits := number.toBits.toNat
  if bits < 1 <<< 63 then bits else 0x7fffffffffffffff - bits

end PaintOrder.Binary64
