import PaintOrder.Error

/-!
# Little-endian words

Numbers of the code format are stored least significant byte first, signed ones in two's
complement.  Writing gives a list of bytes to append; reading takes a position in a byte
string and fails if the string ends before the number does.
-/

namespace PaintOrder.Code

def wordBytes (word : UInt16) : List UInt8 :=
  [word.toUInt8, (word >>> 8).toUInt8]

def signedWordBytes (word : Int16) : List UInt8 :=
  wordBytes word.toUInt16

/-- A number as a signed 16-bit word, if it fits. -/
def signedWord? (number : Int) : Option Int16 :=
  if -32768 ≤ number ∧ number ≤ 32767 then some (Int16.ofInt number) else none

def byteAt (data : Array UInt8) (position : Nat) : Except Error UInt8 :=
  match data[position]? with
  | some byte => .ok byte
  | none => .error .shortRead

def wordAt (data : Array UInt8) (position : Nat) : Except Error UInt16 := do
  let low ← byteAt data position
  let high ← byteAt data (position + 1)
  return low.toUInt16 ||| high.toUInt16 <<< 8

def signedWordAt (data : Array UInt8) (position : Nat) : Except Error Int16 := do
  let word ← wordAt data position
  return word.toInt16

end PaintOrder.Code

namespace PaintOrder.Fixed

def bytes (number : Fixed) : List UInt8 :=
  let word := number.raw.toUInt32
  [word.toUInt8, (word >>> 8).toUInt8, (word >>> 16).toUInt8, (word >>> 24).toUInt8]

def readAt (data : Array UInt8) (position : Nat) : Except Error Fixed := do
  let low ← Code.wordAt data position
  let high ← Code.wordAt data (position + 2)
  return ⟨(low.toUInt32 ||| high.toUInt32 <<< 16).toInt32⟩

end PaintOrder.Fixed

namespace PaintOrder.FixedVector

def byteSize : Nat := 12

def bytes (vector : FixedVector) : List UInt8 :=
  vector.x.bytes ++ vector.y.bytes ++ vector.z.bytes

def readAt (data : Array UInt8) (position : Nat) : Except Error FixedVector := do
  let x ← Fixed.readAt data position
  let y ← Fixed.readAt data (position + 4)
  let z ← Fixed.readAt data (position + 8)
  return ⟨x, y, z⟩

end PaintOrder.FixedVector
