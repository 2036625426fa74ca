import PaintOrder.Error
import PaintOrder.Geometry.Plane

/-!
# Faces

A face is a convex, planar polygon with a representative point, a normal and a surface.
Seen from the front its vertices run counter-clockwise.  The module derives normals,
checks that a face can take part in a partition, and says on which side of a plane a face
lies as a whole.
-/

namespace PaintOrder

structure Vertex where
  position : FixedVector
  /-- Texture coordinates and light, on textured faces only. -/
  uv : Option FixedVector
  deriving DecidableEq, Repr, Inhabited

/-- How a face is painted. -/
inductive Surface where
  | flat (color : UInt16)
  | textured (texture : UInt16)
  deriving DecidableEq, Repr, Inhabited

/-- Whether a surface needs texture coordinates. -/
def Surface.isTextured : Surface → Bool
  | .flat _ => false
  | .textured _ => true

/-- A polygon with its plane and its paint. -/
structure Face where
  vertices : List Vertex
  /-- A point on the face, the first vertex unless it was given. -/
  point : FixedVector
  normal : FixedVector
  surface : Surface
  deriving DecidableEq, Repr, Inhabited

/-- Where a whole face lies. -/
inductive Placement where
  | front
  | back
  /-- With vertices strictly on both sides. -/
  | spanning
  deriving DecidableEq, Repr

/-- The edges of a ring: every element with the one after it, the last with the first. -/
def ringEdges (ring : List α) : List (α × α) :=
  ring.zip (ring.tail ++ ring.take 1)

namespace Face

/-- A face with a given normal; its point is its first vertex. -/
def withNormal (vertices : List Vertex) (normal : FixedVector) (surface : Surface) : Face where
  vertices := vertices
  point := (vertices.head?.map Vertex.position).getD .zero
  normal := normal
  surface := surface

/-- What one edge adds to the area vector of a polygon. -/
def edgeArea (current next : FloatVector) : FloatVector :=
  ⟨(current.y - next.y) * (current.z + next.z),
    (current.z - next.z) * (current.x + next.x),
    (current.x - next.x) * (current.y + next.y)⟩

/-- The normal of length one that the winding of the vertices gives, summed over the edges
in order so that slightly bent polygons have one too. -/
def windingNormal? (vertices : List Vertex) : Option FloatVector :=
  if vertices.length < 3 then none
  else
    let positions := vertices.map fun vertex => vertex.position.toFloat
    let area := (ringEdges positions).foldl
      (fun sum edge => sum + edgeArea edge.1 edge.2) ⟨0, 0, 0⟩
    let length := area.norm
    if length > FloatVector.epsilon then some (area.unscale length) else none

/-- A face whose normal follows from its winding, zero if the vertices give none. -/
def ofVertices (vertices : List Vertex) (surface : Surface) : Face :=
  withNormal vertices (((windingNormal? vertices).map FixedVector.ofFloat).getD .zero) surface

def size (face : Face) : Nat :=
  face.vertices.length

def isTextured (face : Face) : Bool :=
  face.surface.isTextured

def plane (face : Face) : Plane :=
  ⟨face.point, face.normal⟩

/-- Checks that a face can take part in a partition; the number only labels the error. -/
def validate (face : Face) (index : Nat) : Except StructuralError Unit :=
  if face.size < 3 then
    .error (.tooFewVertices index face.size)
  else if face.normal.isZero then
    .error (.degenerateFace index)
  else if face.vertices.any fun vertex => vertex.uv.isSome != face.isTextured then
    .error (if face.isTextured then .missingUv index else .strayUv index)
  else
    .ok ()

/-- The place of a face, given the sides of its vertices.  A face that lies in the plane is
in front if it faces along the normal or at a right angle to it. -/
@[inline]
def placementOfSides (sides : List Side) (facesAlong : Bool) : Placement :=
  match sides.contains .front, sides.contains .back with
  | true, true => .spanning
  | true, false => .front
  | false, true => .back
  | false, false => if facesAlong then .front else .back

def placement (face : Face) (plane : Plane) : Placement :=
  placementOfSides (face.vertices.map fun vertex => plane.side vertex.position)
    (face.normal.toFloat.dot plane.normal.toFloat ≥ 0)

end Face

end PaintOrder
