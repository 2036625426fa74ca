import PaintOrder.Geometry.Vector

/-!
# What can go wrong

Four families of causes end a call: malformed geometry or hierarchies, a limit of the
16-bit code format, code that is not well formed, and bytes that end too early.  A fifth
outcome is no fault of the input: a partition may need deeper splits than the caller
allows.  Each cause carries the numbers that its message shows.
-/

namespace PaintOrder

/-- A face, a partition or a hierarchy is malformed. -/
inductive StructuralError where
  | tooFewVertices (face count : Nat)
  | degenerateFace (face : Nat)
  | missingUv (face : Nat)
  | strayUv (face : Nat)
  /-- A cut left a fragment that is no polygon. -/
  | degenerateSplit (count : Nat)
  /-- A split left nothing behind its plane. -/
  | oneSidedNode
  | degenerateSplitter
  /-- A polygon uses a position that was not numbered. -/
  | unindexedVertex (position : FixedVector)
  /-- A face of a leaf crosses the plane of another. -/
  | spanningFaceInLeaf
  | emptyHierarchy
  | rootHasParent
  /-- A submodel has no usable parent, or cannot be reached from the root. -/
  | orphan (child : Nat)
  /-- Parent and child disagree about their link. -/
  | brokenLink (parent child : Nat)
  | cycle (submodel : Nat)
  deriving DecidableEq, Repr

/-- A model does not fit the limits of the code format, most of them those of a signed
16-bit word. -/
inductive CapacityError where
  | offsetOutOfRange (position : Nat) (offset : Int)
  | positionOutOfRange (position : Nat)
  | scratchExhausted (length capacity : Nat)
  | tooManyVertices (index : Nat)
  | tooManyFaceVertices (count : Nat)
  | tooManySubmodels (index : Nat)
  deriving DecidableEq, Repr

/-- A byte string is not well-formed code. -/
inductive FormatError where
  | unknownOpcode (opcode : UInt16) (position : Nat)
  | truncated (position : Nat)
  | badJump (position : Nat) (offset : Int16)
  /-- A count is too small. -/
  | badCount (position : Nat) (count : Int16)
  | sharedBranch (position : Nat)
  /-- A polygon uses a vertex number that no point block has defined. -/
  | undefinedVertex (position : Nat) (index : Int16)
  | duplicateSubmodel (index : Nat)
  /-- A submodel below the highest one called is never called. -/
  | missingSubmodel (index : Nat)
  /-- A call names the root or a negative number. -/
  | badSubmodel (position : Nat) (index : Int16)
  | tooDeep (limit : Nat)
  deriving DecidableEq, Repr

/-- Why a call gave no result. -/
inductive Error where
  | structural (cause : StructuralError)
  | capacity (cause : CapacityError)
  | format (cause : FormatError)
  /-- The bytes end inside a number. -/
  | shortRead
  /-- The splits of a partition nest more deeply than the caller allows. -/
  | unfinished
  deriving DecidableEq, Repr

instance : MonadLift (Except StructuralError) (Except Error) :=
  ⟨Except.mapError .structural⟩

instance : MonadLift (Except CapacityError) (Except Error) :=
  ⟨Except.mapError .capacity⟩

instance : MonadLift (Except FormatError) (Except Error) :=
  ⟨Except.mapError .format⟩

namespace StructuralError

private def stepsText (vector : FixedVector) : String :=
  let step (number : Fixed) : String := toString number.raw.toInt
  "FixVec \x7b x: Fix(" ++ step vector.x ++ "), y: Fix(" ++ step vector.y ++
    "), z: Fix(" ++ step vector.z ++ ") \x7d"

def message : StructuralError → String
  | .tooFewVertices face count =>
      s!"face {face} has {count} vertices, at least 3 are required"
  | .degenerateFace face => s!"face {face} has a zero-length normal"
  | .missingUv face => s!"textured face {face} has a vertex without texture coordinates"
  | .strayUv face => s!"flat face {face} carries texture coordinates"
  | .degenerateSplit count => s!"splitting a face left a fragment with {count} vertices"
  | .oneSidedNode => "split node with only a front child"
  | .degenerateSplitter => "splitter plane has a zero normal"
  | .unindexedVertex position =>
      "vertex " ++ stepsText position ++ " is missing from the point block"
  | .spanningFaceInLeaf => "leaf still holds a face spanning another face's plane"
  | .emptyHierarchy => "model has no submodels"
  | .rootHasParent => "submodel 0 must be the only root, found a parent"
  | .orphan child => s!"submodel {child} lists no parent or an unknown one"
  | .brokenLink parent child =>
      s!"submodel {child} is not listed among the children of its parent {parent}"
  | .cycle submodel => s!"submodel {submodel} is reachable more than once"

end StructuralError

namespace CapacityError

def message : CapacityError → String
  | .offsetOutOfRange position offset =>
      s!"model too complex: offset {offset} from position {position} exceeds 16 bits"
  | .positionOutOfRange position =>
      s!"model too complex: buffer position {position} exceeds 16 bits"
  | .scratchExhausted length capacity =>
      s!"model too complex: {length} bytes exceed the {capacity} byte scratch buffer"
  | .tooManyVertices index => s!"model too complex: vertex index {index} exceeds 16 bits"
  | .tooManyFaceVertices count => s!"face with {count} vertices cannot be encoded"
  | .tooManySubmodels index => s!"submodel index {index} exceeds 16 bits"

end CapacityError

namespace FormatError

def message : FormatError → String
  | .unknownOpcode opcode position => s!"unknown opcode {opcode.toNat} at {position}"
  | .truncated position => s!"instruction at {position} runs past the end of the buffer"
  | .badJump position offset => s!"jump from {position} by {offset.toInt} leaves the buffer"
  | .badCount position count => s!"invalid count {count.toInt} at {position}"
  | .sharedBranch position => s!"instruction at {position} is reached more than once"
  | .undefinedVertex position index =>
      s!"polygon at {position} references undefined vertex {index.toInt}"
  | .duplicateSubmodel index => s!"submodel {index} is called more than once"
  | .missingSubmodel index => s!"submodel {index} is never called"
  | .badSubmodel position index => s!"invalid submodel index {index.toInt} at {position}"
  | .tooDeep limit => s!"instruction nesting deeper than {limit}"

end FormatError

def Error.message : Error → String
  | .structural cause => cause.message
  | .capacity cause => cause.message
  | .format cause => cause.message
  | .shortRead => "failed to fill whole buffer"
  | .unfinished => "splits nest deeper than allowed"

end PaintOrder
