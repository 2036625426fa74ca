import PaintOrder.Code.Execution
import PaintOrder.Proofs.Code.Decoding

/-!
# Executing code with every access checked

The same execution again, as a machine makes it: positions and sizes are 64-bit words, bytes
are read off the front of slices, and the lists of points, buckets and marks have a length.
An access outside of a list and a number outside of its word are faults, which end the
execution like an error does but are none that the code could report.  Records are kept along
the way: the positions at which the execution arrived, those at which an instruction was
dispatched, and how many faces were produced.
-/

namespace PaintOrder.Code.Checked

/-- Why an execution stops before the end of the code. -/
inductive Halt where
  /-- An error is reported. -/
  | error (cause : Error)
  /-- An access is outside of its list, or a number outside of its word. -/
  | fault
  deriving DecidableEq, Repr

/-- What was recovered, and a record of the work. -/
structure Trace where
  recovery : Recovery := {}
  /-- Where opcodes were read, the last one first. -/
  arrived : List Nat := []
  /-- Where instructions were dispatched, the last one first. -/
  dispatched : List Nat := []
  /-- How many faces were produced. -/
  produced : Nat := 0

abbrev Checking := EStateM Halt Trace

instance : MonadLift (Except FormatError) (Except Halt) :=
  ⟨Except.mapError fun cause => .error (.format cause)⟩

instance : MonadLift (Except Halt) Checking where
  monadLift
    | .ok value => pure value
    | .error halt => throw halt

section Numbers

/-- One more than the greatest position or size. -/
def wordSize : Nat := 1 <<< 64

/-- A sum or product is a position or size again. -/
def fits (number : Nat) : Except Halt Unit :=
  if number < wordSize then .ok () else .error .fault

/-- A position or size as a signed number of the same 64 bits. -/
def signed (number : Nat) : Int :=
  Int.bmod number wordSize

/-- Where a jump leads, reckoned in signed numbers. -/
def jump (data : Array UInt8) (position : Nat) (offset : Int16) : Except Halt Nat :=
  let target := signed position + offset.toInt
  if target < -(1 <<< 63) ∨ 1 <<< 63 ≤ target then .error .fault
  else if target < 0 ∨ signed data.size ≤ target then
    .error (.error (.format (.badJump position offset)))
  else .ok target.toNat

end Numbers

section Slices

/-- Some of the bytes, from a start to before a stop. -/
structure Slice where
  start : Nat
  stop : Nat

/-- The bytes of a length from a position on, if they are there. -/
def slice (data : Array UInt8) (position length : Nat) : Except Halt Slice :=
  if position + length < wordSize ∧ position + length ≤ data.size then
    .ok ⟨position, position + length⟩
  else .error (.error (.format (.truncated position)))

/-- A slice without its first bytes. -/
def Slice.drop (slice : Slice) (count : Nat) : Except Halt Slice :=
  if slice.start + count ≤ slice.stop then .ok ⟨slice.start + count, slice.stop⟩
  else .error .fault

/-- Reads a number of some size off the front of a slice.  A slice that is too short gives an
error; one that is not inside the bytes would be a fault. -/
def read {α : Type} (size : Nat) (readAt : Nat → Except Error α) (slice : Slice) :
    Except Halt (α × Slice) :=
  if slice.start + size ≤ slice.stop then
    match readAt slice.start with
    | .ok number => .ok (number, ⟨slice.start + size, slice.stop⟩)
    | .error _ => .error .fault
  else .error (.error .shortRead)

def readWord (data : Array UInt8) : Slice → Except Halt (UInt16 × Slice) :=
  read 2 (wordAt data)

def readSignedWord (data : Array UInt8) : Slice → Except Halt (Int16 × Slice) :=
  read 2 (signedWordAt data)

def readVector (data : Array UInt8) (slice : Slice) : Except Halt (FixedVector × Slice) := do
  let (x, slice) ← read 4 (Fixed.readAt data) slice
  let (y, slice) ← read 4 (Fixed.readAt data) slice
  let (z, slice) ← read 4 (Fixed.readAt data) slice
  return (⟨x, y, z⟩, slice)

end Slices

section Instructions

variable (data : Array UInt8)

/-- The first number of a point block, its count and its slice. -/
def pointsHeader (position : Nat) : Except Halt (Nat × Nat × Slice) := do
  fits (position + 2)
  let header ← slice data (position + 2) (pointsHeaderSize - 2)
  let (countWord, header) ← readSignedWord data header
  let (firstWord, _) ← readSignedWord data header
  let count ← countOfWord position countWord 0
  let first ← countOfWord position firstWord 0
  fits (position + pointsHeaderSize)
  fits (count * FixedVector.byteSize)
  let block ← slice data (position + pointsHeaderSize) (count * FixedVector.byteSize)
  fits (first + count)
  fits (pointsSize count)
  return (first, count, block)

/-- The vertices of a polygon, from a slice of numbers and one of texture coordinates. -/
def vertices (points : Array (Option FixedVector)) (position : Nat) (textured : Bool) :
    Nat → Slice → Slice → Except Halt (List Vertex)
  | 0, _, _ => .ok []
  | count + 1, indices, uvs => do
      let (index, indices) ← readSignedWord data indices
      let vertex ← Execution.vertexOf points position ⟨index, none⟩
      if textured then
        let (uv, uvs) ← readVector data uvs
        let rest ← vertices points position textured count indices uvs
        return { vertex with uv := some uv } :: rest
      else
        return vertex :: (← vertices points position textured count indices uvs)

/-- The face that a polygon draws, and the size of the polygon. -/
def polygon (points : Array (Option FixedVector)) (position : Nat) (textured : Bool) :
    Except Halt (Face × Nat) := do
  fits (position + 2)
  let header ← slice data (position + 2) (polygonHeaderSize - 2)
  let (countWord, header) ← readSignedWord data header
  let count ← countOfWord position countWord 3
  let (point, header) ← readVector data header
  let (normal, header) ← readVector data header
  let (paint, _) ← readWord data header
  fits (polygonSize count textured)
  let body ← slice data position (polygonSize count textured)
  let indices ← body.drop polygonHeaderSize
  let uvs ← body.drop (polygonHeaderSize + indexListLength count * 2)
  let vertices ← vertices data points position textured count indices uvs
  let surface : Surface := if textured then .textured paint else .flat paint
  return (⟨vertices, point, normal, surface⟩, polygonSize count textured)

/-- The branches of a sort, the front one first. -/
def sort (position : Nat) : Except Halt (Nat × Nat) := do
  fits (position + sortBackField)
  let fields ← slice data (position + sortBackField) (sortSize - sortBackField)
  let (backOffset, fields) ← readSignedWord data fields
  let (frontOffset, _) ← readSignedWord data fields
  let front ← jump data position frontOffset
  let back ← jump data position backOffset
  return (front, back)

/-- The submodel of a call, with its offset and where its code starts. -/
def call (position : Nat) : Except Halt (Nat × FixedVector × Nat) := do
  fits (position + 2)
  let fields ← slice data (position + 2) (callSize - 2)
  let (word, fields) ← readSignedWord data fields
  let (offset, fields) ← readVector data fields
  let (jumpOffset, _) ← readSignedWord data fields
  if word.toInt ≤ 0 then throw (.error (.format (.badSubmodel position word)))
  let target ← jump data position jumpOffset
  return (word.toInt.toNat, offset, target)

end Instructions

section State

/-- A change of what was recovered. -/
def recover (change : Recovery → Recovery) : Checking Unit :=
  modify fun trace => { trace with recovery := change trace.recovery }

/-- Marks the instruction at a position and dispatches it, unless it was reached before. -/
def dispatch (position : Nat) : Checking Unit := do
  modify fun trace => { trace with arrived := position :: trace.arrived }
  let recovery := (← get).recovery
  if position < recovery.executed.size then
    if recovery.executed.getD position false then
      throw (.error (.format (.sharedBranch position)))
    modify fun trace =>
      { trace with
        recovery :=
          { trace.recovery with
            executed := trace.recovery.executed.setIfInBounds position true }
        dispatched := position :: trace.dispatched }
  else throw .fault

/-- Sets the points from a number on, each as it is read. -/
def fill (data : Array UInt8) : Nat → Nat → Slice → Checking Unit
  | _, 0, _ => pure ()
  | number, count + 1, block => do
      let (position, block) ← readVector data block
      if number < (← get).recovery.points.size then
        recover fun recovery =>
          { recovery with points := recovery.points.setIfInBounds number (some position) }
        fill data (number + 1) count block
      else throw .fault

/-- Defines the points of a block and tells its size. -/
def points (data : Array UInt8) (position : Nat) : Checking Nat := do
  let (first, count, block) ← pointsHeader data position
  recover fun recovery =>
    { recovery with points := Execution.extend recovery.points (first + count) }
  fill data first count block
  return pointsSize count

/-- Adds a face to a submodel. -/
def addFace (submodel : Nat) (face : Face) : Checking Unit := do
  if submodel < (← get).recovery.buckets.size then
    modify fun trace =>
      { trace with
        recovery :=
          { trace.recovery with
            buckets := trace.recovery.buckets.modify submodel fun bucket? =>
              let bucket := bucket?.getD {}
              some { bucket with faces := bucket.faces.push face } }
        produced := trace.produced + 1 }
  else throw .fault

/-- Makes room for a submodel and opens it, unless it was called before. -/
def openBucket (submodel : Nat) (bucket : Bucket) : Checking Unit := do
  fits (submodel + 1)
  recover fun recovery =>
    { recovery with
      buckets := recovery.buckets ++
        Array.replicate (submodel + 1 - recovery.buckets.size) none }
  let buckets := (← get).recovery.buckets
  if submodel < buckets.size then
    if (buckets[submodel]?).join.isSome then
      throw (.error (.format (.duplicateSubmodel submodel)))
    recover fun recovery =>
      { recovery with buckets := recovery.buckets.setIfInBounds submodel (some bucket) }
  else throw .fault

/-- Executes the code from a position to the end of its branch.  That an instruction leads no
further on would be a fault as well. -/
def walk (data : Array UInt8) (depth submodel position : Nat) : Checking Unit := do
  if _ : nestingLimit < depth then throw (.error (.format (.tooDeep nestingLimit)))
  else
    let onward (size : Nat) : Checking Unit := do
      fits (position + size)
      if _ : 0 < size ∧ position < data.size then
        walk data depth submodel (position + size)
      else throw .fault
    let (word, _) ← readWord data (← slice data position stopSize)
    dispatch position
    match ← (Opcode.ofWord word position : Except FormatError Opcode) with
    | .stop => pure ()
    | .points | .pointsFrom => onward (← points data position)
    | .flatPolygon =>
        let (face, size) ← polygon data (← get).recovery.points position false
        addFace submodel face
        onward size
    | .texturedPolygon =>
        let (face, size) ← polygon data (← get).recovery.points position true
        addFace submodel face
        onward size
    | .sort =>
        let (front, back) ← sort data position
        fits (depth + 1)
        walk data (depth + 1) submodel front
        walk data (depth + 1) submodel back
        onward sortSize
    | .call =>
        let (callee, offset, target) ← call data position
        openBucket callee { parent := some submodel, offset := offset, entry := target }
        fits (depth + 1)
        walk data (depth + 1) callee target
        onward callSize
termination_by (nestingLimit + 1 - depth, data.size - position)

/-- Executes the root submodel from an entry on. -/
def fromEntry (data : Array UInt8) (entry : Nat) : Checking Unit := do
  recover fun recovery => { recovery with buckets := #[some { entry := entry }] }
  walk data 0 0 entry

end State

end PaintOrder.Code.Checked
