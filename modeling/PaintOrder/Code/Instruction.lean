import PaintOrder.Code.Opcode
import PaintOrder.Geometry.Face

/-!
# Reading instructions

One instruction is read from a position in a byte string, which nothing is assumed about.
An instruction that does not end inside the bytes is truncated; jumps are turned into
positions, and a jump out of the bytes is an error.  What needs more than the bytes, such as
whether a vertex number is defined, is left to the execution of the code.
-/

namespace PaintOrder.Code

/-- A corner of a polygon: a vertex number and perhaps texture coordinates. -/
structure Corner where
  index : Int16
  uv : Option FixedVector
  deriving DecidableEq, Repr

/-- A polygon whose corners are still numbers. -/
structure Polygon where
  corners : List Corner
  point : FixedVector
  normal : FixedVector
  surface : Surface
  deriving DecidableEq, Repr

/-- An instruction with its jumps as positions. -/
inductive Instruction where
  | stop
  | points (first : Nat) (positions : List FixedVector)
  | draw (polygon : Polygon)
  | sort (front back : Nat)
  /-- Draws a submodel whose code starts at `target`. -/
  | call (submodel : Nat) (offset : FixedVector) (target : Nat)
  deriving DecidableEq, Repr

def Instruction.size : Instruction → Nat
  | stop => stopSize
  | points _ positions => pointsSize positions.length
  | draw polygon => polygonSize polygon.corners.length polygon.surface.isTextured
  | sort .. => sortSize
  | call .. => callSize

/-- Every instruction takes up some bytes. -/
theorem Instruction.size_pos (instruction : Instruction) : 0 < instruction.size := by
  cases instruction <;>
    simp only [size, stopSize, pointsSize, pointsHeaderSize, polygonSize, polygonHeaderSize,
      sortSize, callSize] <;>
    omega

/-- Checks that `length` bytes from a position on are there. -/
def require (data : Array UInt8) (position length : Nat) : Except FormatError Unit :=
  if position + length ≤ data.size then .ok () else .error (.truncated position)

/-- The position that a jump from an instruction leads to. -/
def jumpTarget (data : Array UInt8) (position : Nat) (offset : Int16) :
    Except FormatError Nat :=
  let target : Int := position + offset.toInt
  if 0 ≤ target ∧ target < data.size then .ok target.toNat
  else .error (.badJump position offset)

/-- A signed word as a number of things, of which there must be at least `least`. -/
def countOfWord (position : Nat) (word : Int16) (least : Nat) : Except FormatError Nat :=
  if (least : Int) ≤ word.toInt then .ok word.toInt.toNat else .error (.badCount position word)

/-- The point block at a position. -/
def pointsAt (data : Array UInt8) (position : Nat) : Except Error Instruction := do
  require data (position + 2) (pointsHeaderSize - 2)
  let count ← countOfWord position (← signedWordAt data (position + 2)) 0
  let first ← countOfWord position (← signedWordAt data (position + 4)) 0
  let start := position + pointsHeaderSize
  require data start (count * FixedVector.byteSize)
  let positions ← (List.range count).mapM fun index =>
    FixedVector.readAt data (start + index * FixedVector.byteSize)
  return .points first positions

/-- The polygon at a position. -/
def polygonAt (data : Array UInt8) (position : Nat) (textured : Bool) :
    Except Error Instruction := do
  require data (position + 2) (polygonHeaderSize - 2)
  let count ← countOfWord position (← signedWordAt data (position + 2)) 3
  let point ← FixedVector.readAt data (position + 4)
  let normal ← FixedVector.readAt data (position + 16)
  let paint ← wordAt data (position + 28)
  require data position (polygonSize count textured)
  let indexStart := position + polygonHeaderSize
  let uvStart := indexStart + indexListLength count * 2
  let corners ← (List.range count).mapM fun corner => do
    let index ← signedWordAt data (indexStart + corner * 2)
    if textured then
      return ⟨index, some (← FixedVector.readAt data (uvStart + corner * FixedVector.byteSize))⟩
    else
      return ⟨index, none⟩
  return .draw ⟨corners, point, normal, if textured then .textured paint else .flat paint⟩

/-- The sort at a position.  The jump to the front is looked at first. -/
def sortAt (data : Array UInt8) (position : Nat) : Except Error Instruction := do
  require data (position + sortBackField) (sortSize - sortBackField)
  let backOffset ← signedWordAt data (position + sortBackField)
  let frontOffset ← signedWordAt data (position + sortFrontField)
  let front ← jumpTarget data position frontOffset
  let back ← jumpTarget data position backOffset
  return .sort front back

/-- The call at a position.  The root cannot be called. -/
def callAt (data : Array UInt8) (position : Nat) : Except Error Instruction := do
  require data (position + 2) (callSize - 2)
  let word ← signedWordAt data (position + 2)
  let offset ← FixedVector.readAt data (position + 4)
  let jump ← signedWordAt data (position + callJumpField)
  if word.toInt ≤ 0 then throw (.format (.badSubmodel position word))
  let target ← jumpTarget data position jump
  return .call word.toInt.toNat offset target

/-- The instruction at a position. -/
def Instruction.at (data : Array UInt8) (position : Nat) : Except Error Instruction := do
  require data position stopSize
  match ← Opcode.ofWord (← wordAt data position) position with
  | .stop => return .stop
  | .points | .pointsFrom => pointsAt data position
  | .flatPolygon => polygonAt data position false
  | .texturedPolygon => polygonAt data position true
  | .sort => sortAt data position
  | .call => callAt data position

end PaintOrder.Code
