import PaintOrder.Geometry.Vector

/-!
# Planes

A plane is a point and a normal in fixed point.  The normal need not have length one;
distances are then multiples of its length.  A point within `planeTolerance` of the plane,
measured that way, counts as lying on it.
-/

namespace PaintOrder

/-- Points nearer to a plane than this lie on it. -/
def planeTolerance : Float := 1e-4

/-- Where a point lies. -/
inductive Side where
  | front
  | back
  /-- On the plane itself, within the tolerance. -/
  | on
  deriving DecidableEq, Repr

/-- A plane through a point, with a normal of any length. -/
structure Plane where
  point : FixedVector
  normal : FixedVector
  deriving DecidableEq, Repr, Inhabited

namespace Plane

/-- Whether the normal is zero, so that nothing can be told from the plane. -/
def isDegenerate (plane : Plane) : Bool :=
  plane.normal.isZero

/-- The distance of a point in multiples of the length of the normal, positive in front. -/
def signedDistance (plane : Plane) (point : FloatVector) : Float :=
  (point - plane.point.toFloat).dot plane.normal.toFloat

def sideOfDistance (distance : Float) : Side :=
  if distance.abs < planeTolerance then .on
  else if distance > 0 then .front
  else .back

def side (plane : Plane) (point : FixedVector) : Side :=
  sideOfDistance (plane.signedDistance point.toFloat)

/-- How far along a segment the plane is met, zero at the start and one at the end, unless
the segment runs along the plane or does not reach it. -/
def crossing? (plane : Plane) (start finish : FloatVector) : Option Float :=
  let normal := plane.normal.toFloat
  let speed := normal.dot (finish - start)
  if speed.abs < FloatVector.epsilon then none
  else
    let time := (plane.point.toFloat - start).dot normal / speed
    if 0 ≤ time && time ≤ 1 then some time else none

end Plane

end PaintOrder
