import PaintOrder.Binary64.Decimal
import PaintOrder.Binary64.Rounding

/-!
# Fixed-point numbers

A coordinate is a 32-bit word counting in steps of `1 / 65536`.  Sums, differences and
negation wrap around; a product is rounded down to a step before it wraps.  Equality is
equality of words, which is what makes two corners of a model the same vertex.
-/

namespace PaintOrder

/-- A number with sixteen binary places, held as the 32-bit word that counts its steps. -/
structure Fixed where
  raw : Int32
  deriving DecidableEq, Hashable, Repr, Inhabited

namespace Fixed

def zero : Fixed := ⟨0⟩

def one : Fixed := ⟨65536⟩

/-- The fixed-point number nearest to a double, a half step going away from zero. -/
def ofFloat (number : Float) : Fixed :=
  ⟨Binary64.nearestInt32 (number * 65536)⟩

def ofInt16 (whole : Int16) : Fixed :=
  ⟨whole.toInt32 <<< 16⟩

def toFloat (number : Fixed) : Float :=
  let magnitude := number.raw.toInt.natAbs.toUInt64.toFloat / 65536
  if number.raw < 0 then -magnitude else magnitude

def text (number : Fixed) : String :=
  Binary64.text number.toFloat

instance : Add Fixed := ⟨fun left right => ⟨left.raw + right.raw⟩⟩

instance : Sub Fixed := ⟨fun left right => ⟨left.raw - right.raw⟩⟩

instance : Neg Fixed := ⟨fun number => ⟨-number.raw⟩⟩

instance : Mul Fixed :=
  ⟨fun left right => ⟨Int32.ofInt (left.raw.toInt * right.raw.toInt / 65536)⟩⟩

instance : Ord Fixed := ⟨fun left right => compare left.raw right.raw⟩

end Fixed

end PaintOrder
