import PaintOrder.Code.Instruction
import PaintOrder.Model.Basic

/-!
# Executing code to recover faces

Code is executed from an entry on.  Both branches of every sort are taken, so that what is
drawn is every face of every submodel and not what one viewer would see.  Vertex numbers
mean the points that were defined last.  The code is not trusted: no instruction may be
reached twice, and sorts and calls nest at most `nestingLimit` deep.

Every step marks its instruction, and branches nest less and less deeply, so execution ends
on any bytes.  A failed execution leaves behind what it had recovered.
-/

namespace PaintOrder.Code

/-- The greatest depth to which sorts and calls are followed. -/
def nestingLimit : Nat := 512

/-- What is known of one submodel: how it was called and the faces drawn for it. -/
structure Bucket where
  parent : Option Nat := none
  offset : FixedVector := .zero
  entry : Nat := 0
  faces : Array Face := #[]
  deriving DecidableEq, Repr, Inhabited

/-- What an execution has found so far. -/
structure Recovery where
  /-- The point that each vertex number stands for, if any. -/
  points : Array (Option FixedVector) := #[]
  /-- The submodels by number, as far as they were called. -/
  buckets : Array (Option Bucket) := #[]
  /-- Whether the instruction at each position was reached. -/
  executed : Array Bool := #[]
  deriving DecidableEq, Repr, Inhabited

abbrev Execution := EStateM Error Recovery

namespace Execution

def fail (cause : FormatError) : Execution α :=
  throw (.format cause)

/-- Marks the instruction at a position, unless it was reached before. -/
def mark (position : Nat) : Execution Unit := do
  if (← get).executed.getD position false then fail (.sharedBranch position)
  modify fun recovery =>
    { recovery with executed := recovery.executed.setIfInBounds position true }

/-- Lengthens a list of points so that the numbers below `size` have a place. -/
def extend (points : Array (Option FixedVector)) (size : Nat) : Array (Option FixedVector) :=
  points ++ Array.replicate (size - points.size) none

def setPoints (points : Array (Option FixedVector)) (first : Nat) :
    List FixedVector → Array (Option FixedVector)
  | [] => points
  | position :: rest => setPoints (points.setIfInBounds first (some position)) (first + 1) rest

def define (first : Nat) (positions : List FixedVector) : Execution Unit :=
  modify fun recovery =>
    { recovery with
      points := setPoints (extend recovery.points (first + positions.length)) first positions }

/-- The vertex of a corner of the polygon at a position. -/
def vertexOf (points : Array (Option FixedVector)) (position : Nat) (corner : Corner) :
    Except FormatError Vertex :=
  let point? := if corner.index < 0 then none else (points[corner.index.toInt.toNat]?).join
  match point? with
  | some point => .ok ⟨point, corner.uv⟩
  | none => .error (.undefinedVertex position corner.index)

/-- The face that the polygon at a position draws. -/
def faceOf (points : Array (Option FixedVector)) (position : Nat) (polygon : Polygon) :
    Except FormatError Face := do
  let vertices ← polygon.corners.mapM (vertexOf points position)
  return ⟨vertices, polygon.point, polygon.normal, polygon.surface⟩

def addFace (submodel : Nat) (face : Face) : Execution Unit :=
  modify fun recovery =>
    { recovery with
      buckets := recovery.buckets.modify submodel fun bucket? =>
        let bucket := bucket?.getD {}
        some { bucket with faces := bucket.faces.push face } }

def draw (submodel position : Nat) (polygon : Polygon) : Execution Unit := do
  match faceOf (← get).points position polygon with
  | .ok face => addFace submodel face
  | .error cause => fail cause

/-- Opens a submodel that was not called before. -/
def openBucket (submodel : Nat) (bucket : Bucket) : Execution Unit := do
  if ((← get).buckets[submodel]?).join.isSome then fail (.duplicateSubmodel submodel)
  modify fun recovery =>
    let room := recovery.buckets ++
      Array.replicate (submodel + 1 - recovery.buckets.size) none
    { recovery with buckets := room.setIfInBounds submodel (some bucket) }

/-- Executes the code from a position to the end of its branch for a submodel, with
`levels` levels of nesting left. -/
def walk (data : Array UInt8) (levels submodel position : Nat) : Execution Unit := do
  if _ : position + 2 ≤ data.size then
    mark position
    match Instruction.at data position with
    | .error error => throw error
    | .ok instruction =>
        match instruction with
        | .stop => pure ()
        | .points first positions =>
            define first positions
            walk data levels submodel (position + pointsSize positions.length)
        | .draw polygon =>
            draw submodel position polygon
            walk data levels submodel
              (position + polygonSize polygon.corners.length polygon.surface.isTextured)
        | .sort front back =>
            match levels with
            | 0 => fail (.tooDeep nestingLimit)
            | nested + 1 =>
                walk data nested submodel front
                walk data nested submodel back
                walk data (nested + 1) submodel (position + sortSize)
        | .call callee offset target =>
            openBucket callee { parent := some submodel, offset := offset, entry := target }
            match levels with
            | 0 => fail (.tooDeep nestingLimit)
            | nested + 1 =>
                walk data nested callee target
                walk data (nested + 1) submodel (position + callSize)
  else
    fail (.truncated position)
termination_by (levels, data.size - position)
decreasing_by
  all_goals simp_wf
  · simp only [pointsSize, pointsHeaderSize]; omega
  · simp only [polygonSize, polygonHeaderSize]; omega
  · omega
  · omega
  · simp only [sortSize]; omega
  · omega
  · simp only [callSize]; omega

/-- Executes the root submodel from an entry on, with everything it calls. -/
def fromEntry (data : Array UInt8) (entry : Nat) : Execution Unit := do
  modify fun recovery => { recovery with buckets := #[some { entry := entry }] }
  walk data nestingLimit 0 entry

end Execution

def Recovery.start (data : Array UInt8) : Recovery where
  executed := Array.replicate data.size false

end PaintOrder.Code
