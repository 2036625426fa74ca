import PaintOrder.Code.Bytes

/-!
# Opcodes and sizes of instructions

Every instruction starts with a 16-bit opcode.  The size of an instruction follows from
its opcode and, for point blocks and polygons, from its count.  A polygon's index list is
padded to an odd number of words, so that what follows it stays aligned to four bytes.
-/

namespace PaintOrder.Code

inductive Opcode where
  | stop
  | points
  | flatPolygon
  | texturedPolygon
  /-- Draws two branches in the order given by the viewer's side of a plane. -/
  | sort
  /-- Draws a submodel in its parent's frame and resumes. -/
  | call
  /-- Defines a run of points in the way that the compiler writes it. -/
  | pointsFrom
  deriving DecidableEq, Repr

namespace Opcode

def word : Opcode → UInt16
  | .stop => 0
  | .points => 1
  | .flatPolygon => 2
  | .texturedPolygon => 3
  | .sort => 4
  | .call => 6
  | .pointsFrom => 7

/-- The opcode that a word stands for; the position only labels the error. -/
def ofWord (word : UInt16) (position : Nat) : Except FormatError Opcode :=
  match word with
  | 0 => .ok .stop
  | 1 => .ok .points
  | 2 => .ok .flatPolygon
  | 3 => .ok .texturedPolygon
  | 4 => .ok .sort
  | 6 => .ok .call
  | 7 => .ok .pointsFrom
  | _ => .error (.unknownOpcode word position)

theorem ofWord_word (opcode : Opcode) (position : Nat) :
    ofWord opcode.word position = .ok opcode := by
  cases opcode <;> rfl

end Opcode

/-- The size of an opcode alone, which is all of an instruction that ends a branch. -/
def stopSize : Nat := 2

def pointsHeaderSize : Nat := 8

def pointsSize (count : Nat) : Nat :=
  pointsHeaderSize + count * FixedVector.byteSize

def polygonHeaderSize : Nat := 30

/-- The number of words in the index list of a polygon with `count` vertices: the next odd
number. -/
def indexListLength (count : Nat) : Nat :=
  if count % 2 = 0 then count + 1 else count

def polygonSize (count : Nat) (textured : Bool) : Nat :=
  polygonHeaderSize + indexListLength count * 2 +
    (if textured then count * FixedVector.byteSize else 0)

def sortSize : Nat := 32

/-- Where the jump to the back branch stands inside a sort. -/
def sortBackField : Nat := 28

/-- Where the jump to the front branch stands inside a sort. -/
def sortFrontField : Nat := 30

def callSize : Nat := 20

/-- Where the jump to the called submodel stands inside a call. -/
def callJumpField : Nat := 16

end PaintOrder.Code
