import PaintOrder.Code.Opcode
import PaintOrder.Code.VertexTable
import PaintOrder.Partition.Tree

/-!
# Writing code

Instructions are appended to a growing byte string.  A sort jumps to code that comes after
it, so its jumps are written as zero first and filled in once both branches are there:

    sort, stop, front branch, back branch

A leaf is a polygon for every face and a stop.  A step that fails leaves behind what it had
written.
-/

namespace PaintOrder.Code

/-- What has been written so far. -/
structure Emitter where
  code : Array UInt8 := #[]
  /-- The first vertex number that is still free. -/
  nextVertex : Nat := 0
  /-- Where the code of each submodel starts. -/
  entries : Array Nat := #[]
  deriving Inhabited

abbrev Emission := EStateM Error Emitter

instance : MonadLift (Except Error) Emission where
  monadLift
    | .ok value => pure value
    | .error error => throw error

namespace Emission

def position : Emission Nat := do
  return (← get).code.size

def write (bytes : List UInt8) : Emission Unit :=
  modify fun emitter => { emitter with code := emitter.code ++ bytes }

/-- A number as a signed word, or the given error. -/
def narrow (number : Int) (overflow : CapacityError) : Emission Int16 :=
  match signedWord? number with
  | some word => pure word
  | none => throw (.capacity overflow)

def overwrite (emitter : Emitter) (position : Nat) (word : Int16) : Emitter :=
  let bits := word.toUInt16
  { emitter with
    code := (emitter.code.setIfInBounds position bits.toUInt8).setIfInBounds (position + 1)
      (bits >>> 8).toUInt8 }

/-- Fills in a jump: the field of an instruction gets the distance from the instruction to
the target. -/
def patch (instruction field target : Nat) : Emission Unit := do
  let offset : Int := target - instruction
  let word ← narrow offset (.offsetOutOfRange instruction offset)
  modify fun emitter => overwrite emitter (instruction + field) word

def writeStop : Emission Unit :=
  write (wordBytes Opcode.stop.word)

def writePoints (table : VertexTable) : Emission Unit := do
  let count ← narrow table.size (.tooManyVertices table.finish)
  let base ← narrow table.base (.tooManyVertices table.base)
  write (wordBytes Opcode.pointsFrom.word ++ signedWordBytes count ++ signedWordBytes base ++
    signedWordBytes 0)
  write (table.positions.toList.flatMap FixedVector.bytes)

def writeIndex (table : VertexTable) (vertex : Vertex) : Emission Unit := do
  match ← table.word? vertex.position with
  | some word => write (signedWordBytes word)
  | none => throw (.structural (.unindexedVertex vertex.position))

def polygonOpcode : Surface → Opcode
  | .flat _ => .flatPolygon
  | .textured _ => .texturedPolygon

/-- The word that names the color or the texture of a surface. -/
def surfaceWord : Surface → UInt16
  | .flat color => color
  | .textured texture => texture

/-- Writes a polygon: its header, its vertex numbers padded to an odd count, and its texture
coordinates if it has a texture. -/
def writePolygon (table : VertexTable) (face : Face) : Emission Unit := do
  let count ← narrow face.size (.tooManyFaceVertices face.size)
  write (wordBytes (polygonOpcode face.surface).word ++ signedWordBytes count ++
    face.point.bytes ++ face.normal.bytes ++ wordBytes (surfaceWord face.surface))
  face.vertices.forM (writeIndex table)
  if face.size % 2 = 0 then write (signedWordBytes 0)
  if face.isTextured then
    write (face.vertices.flatMap fun vertex => (vertex.uv.map FixedVector.bytes).getD [])

/-- Writes a sort whose jumps are still zero, and tells where it stands. -/
def writeSort (plane : Plane) : Emission Nat := do
  let instruction ← position
  write (wordBytes Opcode.sort.word ++ signedWordBytes 0 ++ plane.normal.bytes ++
    plane.point.bytes ++ signedWordBytes 0 ++ signedWordBytes 0)
  return instruction

/-- Writes a call whose jump is still zero, and tells where it stands. -/
def writeCall (submodel : Nat) (offset : FixedVector) : Emission Nat := do
  let index ← narrow submodel (.tooManySubmodels submodel)
  let instruction ← position
  write (wordBytes Opcode.call.word ++ signedWordBytes index ++ offset.bytes ++
    signedWordBytes 0 ++ signedWordBytes 0)
  return instruction

/-- Writes a face of a leaf, which must be a proper polygon. -/
def writeLeafFace (table : VertexTable) (face : Face) (index : Nat) : Emission Unit := do
  face.validate index
  writePolygon table face

def writeTree (table : VertexTable) : Tree → Emission Unit
  | .leaf faces => do
      faces.zipIdx.forM fun (face, index) => writeLeafFace table face index
      writeStop
  | .split plane front back => do
      if plane.isDegenerate then throw (.structural .degenerateSplitter)
      let sort ← writeSort plane
      writeStop
      let frontStart ← position
      writeTree table front
      let backStart ← position
      writeTree table back
      patch sort sortBackField backStart
      patch sort sortFrontField frontStart

end Emission

namespace Emitter

/-- The finished code, if it fits into `capacity` bytes and every position in it into a
signed 16-bit word. -/
def finish (emitter : Emitter) (capacity : Nat) : Except CapacityError (Array UInt8) :=
  let length := emitter.code.size
  if capacity < length then .error (.scratchExhausted length capacity)
  else if 32767 < length then .error (.positionOutOfRange length)
  else .ok emitter.code

end Emitter

end PaintOrder.Code
