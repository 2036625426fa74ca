import PaintOrder.Geometry.Face

/-!
# Cutting a face along a plane

A face that spans a plane is cut by walking around its ring of vertices once.  Each vertex
goes to the part on its side, a vertex on the plane to both, and an edge that runs strictly
from one side to the other adds to both parts the vertex where it meets the plane.  The
parts keep the normal and the surface of the face.
-/

namespace PaintOrder

/-- What becomes of a face at a plane. -/
inductive Pieces where
  | front (face : Face)
  | back (face : Face)
  | both (front back : Face)
  deriving DecidableEq, Repr

namespace Pieces

def front? : Pieces → Option Face
  | .front face => some face
  | .back _ => none
  | .both inFront _ => some inFront

def back? : Pieces → Option Face
  | .front _ => none
  | .back face => some face
  | .both _ behind => some behind

end Pieces

structure SidedVertex where
  vertex : Vertex
  side : Side

namespace SidedVertex

/-- Whether an edge runs strictly from one side to the other. -/
def crosses (current next : SidedVertex) : Bool :=
  match current.side, next.side with
  | .front, .back => true
  | .back, .front => true
  | _, _ => false

end SidedVertex

def FloatVector.between (start finish : FloatVector) (time : Float) : FloatVector :=
  start + (finish - start).scale time

def FixedVector.between (start finish : FixedVector) (time : Float) : FixedVector :=
  .ofFloat (start.toFloat.between finish.toFloat time)

/-- The vertex a given part of the way along an edge.  It has texture coordinates if both
ends have them. -/
def Vertex.between (start finish : Vertex) (time : Float) : Vertex where
  position := start.position.between finish.position time
  uv :=
    match start.uv, finish.uv with
    | some first, some second => some (first.between second time)
    | _, _ => none

namespace Face

/-- The vertex that an edge adds where it meets the plane, if it crosses it. -/
def cutVertex? (plane : Plane) (current next : SidedVertex) : Option Vertex :=
  if current.crosses next then
    (plane.crossing? current.vertex.position.toFloat next.vertex.position.toFloat).map
      (current.vertex.between next.vertex)
  else
    none

/-- The vertices of the part on one side: going around the ring, every vertex that is not
strictly on the other side, each followed by what its edge adds. -/
def partVertices (plane : Plane) (other : Side) (ring : List SidedVertex) : List Vertex :=
  (ringEdges ring).flatMap fun (current, next) =>
    (if current.side = other then [] else [current.vertex]) ++
      (cutVertex? plane current next).toList

/-- The front and the back part of a face.  A part that is no polygon is an error. -/
def split (face : Face) (plane : Plane) : Except StructuralError (Face × Face) :=
  let ring := face.vertices.map fun vertex => ⟨vertex, plane.side vertex.position⟩
  let frontVertices := partVertices plane .back ring
  let backVertices := partVertices plane .front ring
  if frontVertices.length < 3 || backVertices.length < 3 then
    .error (.degenerateSplit (min frontVertices.length backVertices.length))
  else
    .ok (withNormal frontVertices face.normal face.surface,
      withNormal backVertices face.normal face.surface)

/-- What becomes of a face at a plane; only a face that spans it is split. -/
def cut (face : Face) (plane : Plane) : Except StructuralError Pieces :=
  match face.placement plane with
  | .front => .ok (.front face)
  | .back => .ok (.back face)
  | .spanning => do
      let (front, back) ← face.split plane
      return .both front back

end Face

end PaintOrder
