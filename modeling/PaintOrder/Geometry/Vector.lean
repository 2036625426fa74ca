import PaintOrder.Geometry.Fixed

/-!
# Vectors in fixed point and in doubles

Positions, normals, offsets and texture coordinates are stored as triples of fixed-point
numbers.  Geometric tests are made on triples of doubles, with the sums of a scalar product
taken from left to right.
-/

namespace PaintOrder

structure FixedVector where
  x : Fixed
  y : Fixed
  z : Fixed
  deriving DecidableEq, Hashable, Repr, Inhabited

structure FloatVector where
  x : Float
  y : Float
  z : Float

namespace FloatVector

instance : Add FloatVector :=
  ⟨fun left right => ⟨left.x + right.x, left.y + right.y, left.z + right.z⟩⟩

instance : Sub FloatVector :=
  ⟨fun left right => ⟨left.x - right.x, left.y - right.y, left.z - right.z⟩⟩

def scale (vector : FloatVector) (factor : Float) : FloatVector :=
  ⟨vector.x * factor, vector.y * factor, vector.z * factor⟩

def unscale (vector : FloatVector) (divisor : Float) : FloatVector :=
  ⟨vector.x / divisor, vector.y / divisor, vector.z / divisor⟩

/-- The scalar product, summed from left to right. -/
def dot (left right : FloatVector) : Float :=
  left.x * right.x + left.y * right.y + left.z * right.z

def norm (vector : FloatVector) : Float :=
  (vector.dot vector).sqrt

/-- The distance from one to the next larger double: lengths up to it count as zero. -/
def epsilon : Float := 2.220446049250313e-16

/-- The vector of length one in the same direction, if the vector has a direction. -/
def normalize? (vector : FloatVector) : Option FloatVector :=
  let length := vector.norm
  if length ≤ epsilon then none else some (vector.unscale length)

/-- The smaller of each pair of components, the first of two equal ones. -/
def lower (left right : FloatVector) : FloatVector :=
  ⟨if left.x ≤ right.x then left.x else right.x,
    if left.y ≤ right.y then left.y else right.y,
    if left.z ≤ right.z then left.z else right.z⟩

/-- The larger of each pair of components, the first of two equal ones. -/
def upper (left right : FloatVector) : FloatVector :=
  ⟨if left.x ≥ right.x then left.x else right.x,
    if left.y ≥ right.y then left.y else right.y,
    if left.z ≥ right.z then left.z else right.z⟩

end FloatVector

namespace FixedVector

def zero : FixedVector := ⟨.zero, .zero, .zero⟩

def ofFloat (vector : FloatVector) : FixedVector :=
  ⟨.ofFloat vector.x, .ofFloat vector.y, .ofFloat vector.z⟩

def toFloat (vector : FixedVector) : FloatVector :=
  ⟨vector.x.toFloat, vector.y.toFloat, vector.z.toFloat⟩

def isZero (vector : FixedVector) : Bool :=
  vector == zero

instance : Add FixedVector :=
  ⟨fun left right => ⟨left.x + right.x, left.y + right.y, left.z + right.z⟩⟩

instance : Sub FixedVector :=
  ⟨fun left right => ⟨left.x - right.x, left.y - right.y, left.z - right.z⟩⟩

instance : Neg FixedVector :=
  ⟨fun vector => ⟨-vector.x, -vector.y, -vector.z⟩⟩

def distance (left right : FixedVector) : Float :=
  (left.toFloat - right.toFloat).norm

def text (vector : FixedVector) : String :=
  s!"({vector.x.text}, {vector.y.text}, {vector.z.text})"

end FixedVector

end PaintOrder
