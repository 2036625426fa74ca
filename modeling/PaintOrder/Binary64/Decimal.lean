/-!
# Shortest decimal text of a double

A positive double stands for every real number that rounds to it.  Among the decimal
numbers in that interval the text shows one with the fewest digits, and of those the one
nearest to the double; an exact tie goes to the larger.  The search walks decimal grids
from coarse to fine and tests, on each grid, the two neighbours of the double.

The text is positional: it never has an exponent, and a whole number has no point.
-/

namespace PaintOrder.Binary64

open Float.Model.UnpackedFloat (Sign)

/-- The positive decimal number `digits * 10 ^ exponent`. -/
structure Decimal where
  digits : Nat
  exponent : Int
  deriving DecidableEq, Repr

namespace Decimal

/-- The positive part of an exponent. -/
private def powerAbove (base : Nat) (exponent : Int) : Nat :=
  Nat.pow base exponent.toNat

/-- The neighbour of `mantissa * 2 ^ exponent` on the grid of multiples of `10 ^ grid` that
rounds to that double, if there is one: the nearer if there are two, the larger on a tie. -/
def onGrid? (mantissa : Nat) (exponent grid : Int) : Option Decimal :=
  -- Everything is compared in quarters of a unit in the last place of the double.
  let quarter := exponent - 2
  let scale := powerAbove 2 quarter * powerAbove 10 (-grid)
  let step := powerAbove 2 (-quarter) * powerAbove 10 grid
  let value := 4 * mantissa * scale
  let narrow := mantissa == 1 <<< 52 && exponent > -1074
  let least := (4 * mantissa - (if narrow then 1 else 2)) * scale
  let greatest := (4 * mantissa + 2) * scale
  let inside (number : Nat) : Bool :=
    if mantissa % 2 = 0 then least ≤ number && number ≤ greatest
    else least < number && number < greatest
  let below := value / step
  let above := below + 1
  let belowFits := inside (below * step)
  let aboveFits := inside (above * step)
  if belowFits && (!aboveFits || value - below * step < above * step - value) then
    some ⟨below, grid⟩
  else if aboveFits then
    some ⟨above, grid⟩
  else
    none

/-- The first hit among `count` grids, each ten times as fine as the one before. -/
def firstOnGrid? (mantissa : Nat) (exponent grid : Int) : Nat → Option Decimal
  | 0 => none
  | count + 1 =>
      match onGrid? mantissa exponent grid with
      | some decimal => some decimal
      | none => firstOnGrid? mantissa exponent (grid - 1) count

/-- The shortest decimal number that rounds to `mantissa * 2 ^ exponent`.  The first grid
is coarser than the double, and seventeen digits always suffice. -/
def shortest? (mantissa : Nat) (exponent : Int) : Option Decimal :=
  let grid := ((mantissa.log2 : Int) + exponent + 1) * 30103 / 100000 + 1
  firstOnGrid? mantissa exponent grid 20

def text (decimal : Decimal) : String :=
  let shown := Nat.toDigits 10 decimal.digits
  match decimal.exponent with
  | .ofNat zeros => String.ofList (shown ++ List.replicate zeros '0')
  | .negSucc places =>
      let padded := List.replicate (places + 2 - shown.length) '0' ++ shown
      let whole := padded.length - (places + 1)
      String.ofList (padded.take whole ++ '.' :: padded.drop whole)

end Decimal

def signText : Sign → String
  | .positive => ""
  | .negative => "-"

/-- The shortest positional decimal text that reads back as the double. -/
def text (number : Float) : String :=
  match number.toModel.unpack with
  | .notANumber => "NaN"
  | .infinity sign => signText sign ++ "inf"
  | .zero sign => signText sign ++ "0"
  | .finite sign mantissa exponent _ =>
      signText sign ++ ((Decimal.shortest? mantissa exponent).map Decimal.text).getD ""

end PaintOrder.Binary64
