import PaintOrder.Geometry.Cut
import PaintOrder.Proofs.Geometry.Coordinates

/-!
# The distance of a cut from its plane

Distances from a plane are multiples of the length of its normal, and so are the errors that are
made in computing them.  The errors of doubles are next to nothing.  What counts is that the
vertex which a cut adds to an edge is moved to the nearest coordinates, half a step in each
direction at most: it then is up to half a step times the normal off the plane.
-/

namespace PaintOrder

open Binary64

/-- A triple of exact numbers. -/
structure ExactVector where
  x : ℚ
  y : ℚ
  z : ℚ

namespace ExactVector

instance : Sub ExactVector :=
  ⟨fun left right => ⟨left.x - right.x, left.y - right.y, left.z - right.z⟩⟩

@[simp] theorem sub_x (left right : ExactVector) : (left - right).x = left.x - right.x := rfl

@[simp] theorem sub_y (left right : ExactVector) : (left - right).y = left.y - right.y := rfl

@[simp] theorem sub_z (left right : ExactVector) : (left - right).z = left.z - right.z := rfl

def dot (left right : ExactVector) : ℚ :=
  left.x * right.x + left.y * right.y + left.z * right.z

/-- The length of a vector, counted along the axes: the sum of the magnitudes of its
components. -/
def length (vector : ExactVector) : ℚ :=
  |vector.x| + |vector.y| + |vector.z|

/-- No component is larger than a bound. -/
structure Within (vector : ExactVector) (bound : ℚ) : Prop where
  x : |vector.x| ≤ bound
  y : |vector.y| ≤ bound
  z : |vector.z| ≤ bound

/-- The point that is reached after a part of the way. -/
def along (start finish : ExactVector) (time : ℚ) : ExactVector :=
  ⟨start.x + (finish.x - start.x) * time, start.y + (finish.y - start.y) * time,
    start.z + (finish.z - start.z) * time⟩

variable {left right : ExactVector} {bound : ℚ}

theorem dot_comm (left right : ExactVector) : left.dot right = right.dot left := by
  unfold dot
  ring

theorem Within.products_le (within : left.Within bound) (right : ExactVector) :
    |left.x * right.x| + |left.y * right.y| + |left.z * right.z| ≤ bound * right.length := by
  unfold length
  rw [abs_mul, abs_mul, abs_mul, mul_add, mul_add]
  gcongr
  · exact within.x
  · exact within.y
  · exact within.z

theorem Within.abs_dot_le (within : left.Within bound) (right : ExactVector) :
    |left.dot right| ≤ bound * right.length :=
  ((abs_add_three _ _ _).trans le_rfl).trans (within.products_le right)

end ExactVector

/-- A triple of doubles stands for a triple of numbers. -/
structure FloatVector.Denotes (vector : FloatVector) (exact : ExactVector) : Prop where
  x : Binary64.Denotes vector.x exact.x
  y : Binary64.Denotes vector.y exact.y
  z : Binary64.Denotes vector.z exact.z

namespace FixedVector

def value (vector : FixedVector) : ExactVector :=
  ⟨vector.x.value, vector.y.value, vector.z.value⟩

theorem denotes_toFloat (vector : FixedVector) : vector.toFloat.Denotes vector.value :=
  ⟨vector.x.denotes_toFloat, vector.y.denotes_toFloat, vector.z.denotes_toFloat⟩

theorem denotes_sub (left right : FixedVector) :
    (left.toFloat - right.toFloat).Denotes (left.value - right.value) :=
  ⟨left.x.denotes_sub right.x, left.y.denotes_sub right.y, left.z.denotes_sub right.z⟩

theorem within_sub (left right : FixedVector) : (left.value - right.value).Within 65536 :=
  ⟨left.x.abs_value_sub_le right.x, left.y.abs_value_sub_le right.y,
    left.z.abs_value_sub_le right.z⟩

theorem length_le (vector : FixedVector) : vector.value.length ≤ 2 ^ 20 := by
  have x := vector.x.abs_value_le
  have y := vector.y.abs_value_le
  have z := vector.z.abs_value_le
  unfold ExactVector.length value
  dsimp only
  linarith

/-- A vector that is shorter than one step is zero. -/
theorem length_eq_zero (vector : FixedVector) (short : vector.value.length < 1 / 2 ^ 16) :
    vector.value.length = 0 := by
  have x := abs_nonneg vector.x.value
  have y := abs_nonneg vector.y.value
  have z := abs_nonneg vector.z.value
  unfold ExactVector.length value at short ⊢
  dsimp only at short ⊢
  rw [vector.x.value_eq_zero (by linarith), vector.y.value_eq_zero (by linarith),
    vector.z.value_eq_zero (by linarith), abs_zero]
  norm_num

end FixedVector

/-- A scalar product of doubles is off by next to nothing, compared with the sizes of its terms. -/
theorem FloatVector.dot_near {left right : FloatVector} {exactLeft exactRight : ExactVector}
    (denotes : left.Denotes exactLeft) (otherDenotes : right.Denotes exactRight) (size : ℚ)
    (bound : |exactLeft.x * exactRight.x| + |exactLeft.y * exactRight.y| +
      |exactLeft.z * exactRight.z| ≤ size)
    (notTiny : 1 / 2 ^ 40 ≤ size) (notHuge : size ≤ 2 ^ 90) :
    ∃ result, Binary64.Denotes (left.dot right) result ∧
      |result - exactLeft.dot exactRight| ≤ size / 2 ^ 48 := by
  have firstSmall := abs_nonneg (exactLeft.x * exactRight.x)
  have secondSmall := abs_nonneg (exactLeft.y * exactRight.y)
  have thirdSmall := abs_nonneg (exactLeft.z * exactRight.z)
  obtain ⟨first, isFirst, firstNear⟩ :=
    denotes.x.mul_near otherDenotes.x size (by linarith) notTiny (by linarith)
  obtain ⟨second, isSecond, secondNear⟩ :=
    denotes.y.mul_near otherDenotes.y size (by linarith) notTiny (by linarith)
  obtain ⟨third, isThird, thirdNear⟩ :=
    denotes.z.mul_near otherDenotes.z size (by linarith) notTiny (by linarith)
  have firstSize := abs_le_of_near firstNear
  have secondSize := abs_le_of_near secondNear
  have thirdSize := abs_le_of_near thirdNear
  have two : |first + second| ≤ 2 * size := (abs_add_le first second).trans (by linarith)
  obtain ⟨sum, isSum, sumNear⟩ := isFirst.add_near isSecond _ two (by linarith) (by linarith)
  have sumSize := abs_le_of_near sumNear
  have three : |sum + third| ≤ 4 * size := (abs_add_le sum third).trans (by linarith)
  obtain ⟨result, isResult, resultNear⟩ := isSum.add_near isThird _ three (by linarith) (by linarith)
  use result, isResult
  rw [abs_le] at firstNear secondNear thirdNear sumNear resultNear ⊢
  unfold ExactVector.dot
  constructor <;> linarith

namespace Plane

/-- The exact distance of a point in multiples of the length of the normal. -/
def offset (plane : Plane) (point : ExactVector) : ℚ :=
  (point - plane.point.value).dot plane.normal.value

variable {plane : Plane} {length : ℚ}

/-- The reach from one position to another along the normal is computed almost exactly. -/
theorem reach_near (normalLength : plane.normal.value.length ≤ length)
    (notTiny : 1 / 2 ^ 16 ≤ length) (notHuge : length ≤ 2 ^ 20) (start finish : FixedVector) :
    ∃ reach,
      Binary64.Denotes ((finish.toFloat - start.toFloat).dot plane.normal.toFloat) reach ∧
        |reach - (finish.value - start.value).dot plane.normal.value| ≤ length / 2 ^ 32 ∧
        |reach| ≤ 2 ^ 17 * length := by
  have bound := (finish.within_sub start).products_le plane.normal.value
  have size := (finish.within_sub start).abs_dot_le plane.normal.value
  obtain ⟨reach, isReach, near⟩ :=
    FloatVector.dot_near (finish.denotes_sub start) plane.normal.denotes_toFloat
      (65536 * length) (bound.trans (by linarith)) (by linarith) (by linarith)
  have below := abs_le_of_near near
  exact ⟨reach, isReach, by linarith, by linarith⟩

/-- So is the speed along the normal, which takes the factors the other way round. -/
theorem speed_near (normalLength : plane.normal.value.length ≤ length)
    (notTiny : 1 / 2 ^ 16 ≤ length) (notHuge : length ≤ 2 ^ 20) (start finish : FixedVector) :
    ∃ speed,
      Binary64.Denotes (plane.normal.toFloat.dot (finish.toFloat - start.toFloat)) speed ∧
        |speed - plane.normal.value.dot (finish.value - start.value)| ≤ length / 2 ^ 32 ∧
        |speed| ≤ 2 ^ 17 * length := by
  have bound := (finish.within_sub start).products_le plane.normal.value
  have size := (finish.within_sub start).abs_dot_le plane.normal.value
  rw [ExactVector.dot_comm] at size
  rw [mul_comm (finish.value - start.value).x, mul_comm (finish.value - start.value).y,
    mul_comm (finish.value - start.value).z] at bound
  obtain ⟨speed, isSpeed, near⟩ :=
    FloatVector.dot_near plane.normal.denotes_toFloat (finish.denotes_sub start)
      (65536 * length) (bound.trans (by linarith)) (by linarith) (by linarith)
  have below := abs_le_of_near near
  exact ⟨speed, isSpeed, by linarith, by linarith⟩

/-- The distance of coordinates is computed almost exactly. -/
theorem signedDistance_near (normalLength : plane.normal.value.length ≤ length)
    (notTiny : 1 / 2 ^ 16 ≤ length) (notHuge : length ≤ 2 ^ 20) (point : FixedVector) :
    ∃ distance, Binary64.Denotes (plane.signedDistance point.toFloat) distance ∧
      |distance - plane.offset point.value| ≤ length / 2 ^ 32 := by
  obtain ⟨distance, isDistance, near, _⟩ :=
    reach_near normalLength notTiny notHuge plane.point point
  exact ⟨distance, isDistance, near⟩

theorem denotes_tolerance : Binary64.Denotes planeTolerance (7378697629483821 / 2 ^ 66) := by
  have unpacked : planeTolerance.toModel.unpack =
      .finite .positive 7378697629483821 (-66) (by decide) := rfl
  have denotes := denotes_of_unpack unpacked
  unfold signed at denotes
  norm_num at denotes ⊢
  exact denotes

theorem denotes_epsilon : Binary64.Denotes FloatVector.epsilon (1 / 2 ^ 52) := by
  have unpacked : FloatVector.epsilon.toModel.unpack =
      .finite .positive (2 ^ 52) (-104) (by decide) := rfl
  have denotes := denotes_of_unpack unpacked
  unfold signed at denotes
  norm_num at denotes ⊢
  exact denotes

/-- A point that is near enough counts as lying on the plane. -/
theorem side_eq_on {point : FixedVector} {distance : ℚ}
    (denotes : Binary64.Denotes (plane.signedDistance point.toFloat) distance)
    (near : |distance| < 7378697629483821 / 2 ^ 66) : plane.side point = .on := by
  unfold side sideOfDistance
  rw [if_pos]
  exact (denotes.abs.lt_iff denotes_tolerance).mpr near

/-- Where an edge meets the plane by the computed time, the exact offset is next to nothing. -/
theorem crossing?_near (normalLength : plane.normal.value.length ≤ length)
    (notTiny : 1 / 2 ^ 16 ≤ length) (notHuge : length ≤ 2 ^ 20) {start finish : FixedVector}
    {time : Float} (met : plane.crossing? start.toFloat finish.toFloat = some time) :
    ∃ part, Binary64.Denotes time part ∧ 0 ≤ part ∧ part ≤ 1 ∧
      |plane.offset (start.value.along finish.value part)| ≤ length / 2 ^ 30 := by
  obtain ⟨speed, isSpeed, speedNear, speedSize⟩ :=
    speed_near normalLength notTiny notHuge start finish
  obtain ⟨reach, isReach, reachNear, reachSize⟩ :=
    reach_near normalLength notTiny notHuge start plane.point
  unfold crossing? at met
  dsimp only at met
  split_ifs at met with slow inside
  have fast : 1 / 2 ^ 52 ≤ |speed| := by
    rw [isSpeed.abs.lt_iff denotes_epsilon] at slow
    exact not_lt.mp slow
  obtain ⟨part, isPart, solves⟩ :=
    isReach.div_near isSpeed (2 ^ 17 * length) reachSize speedSize fast (by linarith)
  rw [Option.some.injEq] at met
  rw [met] at isPart inside
  rw [Bool.and_eq_true, decide_eq_true_eq, decide_eq_true_eq, denotes_zero.le_iff isPart,
    isPart.le_iff denotes_one] at inside
  obtain ⟨begun, within⟩ := inside
  use part, isPart, begun, within
  have meets : plane.offset (start.value.along finish.value part) =
      (plane.normal.value.dot (finish.value - start.value) - speed) * part +
        (speed * part - reach) +
          (reach - (plane.point.value - start.value).dot plane.normal.value) := by
    simp only [offset, ExactVector.dot, ExactVector.along, ExactVector.sub_x, ExactVector.sub_y,
      ExactVector.sub_z]
    ring
  have first : |(plane.normal.value.dot (finish.value - start.value) - speed) * part| ≤
      length / 2 ^ 32 := by
    rw [abs_mul, abs_of_nonneg begun, abs_sub_comm]
    exact (mul_le_of_le_one_right (abs_nonneg _) within).trans speedNear
  rw [meets]
  apply (abs_add_three _ _ _).trans
  linarith

end Plane

/-- A coordinate on an edge is off by half a step and next to nothing more. -/
theorem Fixed.between_near (start finish : Fixed) {time : Float} {part : ℚ}
    (denotes : Binary64.Denotes time part) (begun : 0 ≤ part) (within : part ≤ 1) :
    |(ofFloat (start.toFloat + (finish.toFloat - start.toFloat) * time)).value -
      (start.value + (finish.value - start.value) * part)| ≤ 1 / 2 ^ 17 + 1 / 2 ^ 32 := by
  have difference := finish.abs_value_sub_le start
  have reach : |(finish.value - start.value) * part| ≤ 65536 := by
    rw [abs_mul, abs_of_nonneg begun]
    exact (mul_le_of_le_one_right (abs_nonneg _) within).trans difference
  obtain ⟨way, isWay, wayNear⟩ :=
    (finish.denotes_sub start).mul_near denotes _ reach (by norm_num) (by norm_num)
  -- the exact point is between the two ends
  obtain ⟨startLeast, startGreatest⟩ := start.value_mem
  obtain ⟨finishLeast, finishGreatest⟩ := finish.value_mem
  have least : -32768 ≤ start.value + (finish.value - start.value) * part := by nlinarith
  have greatest : start.value + (finish.value - start.value) * part ≤ 32768 - 1 / 65536 := by
    nlinarith
  have sumBound : |start.value + way| ≤ 32769 := by
    rw [abs_le] at wayNear ⊢
    constructor <;> linarith
  obtain ⟨sum, isSum, sumNear⟩ :=
    start.denotes_toFloat.add_near isWay _ sumBound (by norm_num) (by norm_num)
  have sumSize := abs_le_of_near sumNear
  have rounded := abs_value_ofFloat_sub_le isSum (by linarith) least greatest
  have near : |sum - (start.value + (finish.value - start.value) * part)| ≤
      (65536 + 32769) / 2 ^ 52 := by
    rw [abs_le] at wayNear sumNear ⊢
    constructor <;> linarith
  linarith

/-- A position on an edge is off by half a step in each direction. -/
theorem FixedVector.between_near (start finish : FixedVector) {time : Float} {part : ℚ}
    (denotes : Binary64.Denotes time part) (begun : 0 ≤ part) (within : part ≤ 1) :
    ((start.between finish time).value - start.value.along finish.value part).Within
      (1 / 2 ^ 17 + 1 / 2 ^ 32) :=
  ⟨start.x.between_near finish.x denotes begun within,
    start.y.between_near finish.y denotes begun within,
    start.z.between_near finish.z denotes begun within⟩

/-- A vertex stands a part of the way from one vertex to another, off by half a step in each
direction.  So do its texture coordinates, which it has if both others have them. -/
structure Vertex.PartWay (start finish : Vertex) (part : ℚ) (vertex : Vertex) : Prop where
  position :
    (vertex.position.value - start.position.value.along finish.position.value part).Within
      (1 / 2 ^ 17 + 1 / 2 ^ 32)
  painted : ∀ startUv finishUv, start.uv = some startUv → finish.uv = some finishUv →
    ∃ uv, vertex.uv = some uv ∧
      (uv.value - startUv.value.along finishUv.value part).Within (1 / 2 ^ 17 + 1 / 2 ^ 32)
  unpainted : start.uv = none ∨ finish.uv = none → vertex.uv = none

theorem Vertex.between_partWay (start finish : Vertex) {time : Float} {part : ℚ}
    (denotes : Binary64.Denotes time part) (begun : 0 ≤ part) (within : part ≤ 1) :
    start.PartWay finish part (start.between finish time) := by
  refine ⟨start.position.between_near finish.position denotes begun within, ?_, ?_⟩
  · intro startUv finishUv isStart isFinish
    refine ⟨startUv.between finishUv time, ?_,
      startUv.between_near finishUv denotes begun within⟩
    rw [between, isStart, isFinish]
  · rintro (unpainted | unpainted)
    · rw [between, unpainted]
    · rw [between, unpainted]
      cases start.uv <;> rfl

namespace Plane

variable {plane : Plane} {length : ℚ}

/-- The vertex that a cut adds is off the plane by half a step times the length of the normal. -/
theorem signedDistance_between_near (normalLength : plane.normal.value.length ≤ length)
    (notTiny : 1 / 2 ^ 16 ≤ length) (notHuge : length ≤ 2 ^ 20) {start finish : FixedVector}
    {time : Float} (met : plane.crossing? start.toFloat finish.toFloat = some time) :
    ∃ distance,
      Binary64.Denotes (plane.signedDistance (start.between finish time).toFloat) distance ∧
        |distance| ≤ length * (1 / 2 ^ 17 + 1 / 2 ^ 29) := by
  obtain ⟨part, isPart, begun, within, meets⟩ :=
    crossing?_near normalLength notTiny notHuge met
  have moved := (start.between_near finish isPart begun within).abs_dot_le plane.normal.value
  obtain ⟨distance, isDistance, near⟩ :=
    signedDistance_near normalLength notTiny notHuge (start.between finish time)
  use distance, isDistance
  have parts : plane.offset (start.between finish time).value =
      ((start.between finish time).value - start.value.along finish.value part).dot
        plane.normal.value + plane.offset (start.value.along finish.value part) := by
    simp only [offset, ExactVector.dot, ExactVector.sub_x, ExactVector.sub_y, ExactVector.sub_z]
    ring
  have offsetSize := abs_add_le
    (((start.between finish time).value - start.value.along finish.value part).dot
      plane.normal.value) (plane.offset (start.value.along finish.value part))
  rw [← parts] at offsetSize
  have distanceSize := abs_le_of_near near
  linarith

/-- With a normal of up to thirteen units the tolerance covers the rounding of a cut. -/
theorem side_between_eq_on (normalLength : plane.normal.value.length ≤ 13)
    {start finish : FixedVector} {time : Float}
    (met : plane.crossing? start.toFloat finish.toFloat = some time) :
    plane.side (start.between finish time) = .on := by
  obtain ⟨distance, isDistance, near⟩ :=
    signedDistance_between_near normalLength (by norm_num) (by norm_num) met
  apply side_eq_on isDistance
  apply near.trans_lt
  norm_num

end Plane

end PaintOrder
