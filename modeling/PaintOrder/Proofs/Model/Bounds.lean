import PaintOrder.Model.Basic
import PaintOrder.Proofs.Code.VertexTable
import PaintOrder.Proofs.Geometry.Midpoint
import PaintOrder.Proofs.Partition.Construction

/-!
# Boxes are exact

The box around the vertices of a submodel is computed in doubles and then stored in fixed point.
Every coordinate is a double, doubles of coordinates are ordered as the coordinates are, and a
coordinate is found again from its double.  So each side of the box is the least or the greatest
coordinate of a vertex, over the whole range of coordinates, and the center is the middle of the
sides.
-/

namespace PaintOrder

open Code.VertexTable (positionsOf)

inductive Axis where
  | x
  | y
  | z
  deriving DecidableEq

namespace Fixed

/-- The smaller of two coordinates. -/
def lesser (left right : Fixed) : Fixed :=
  if left.raw.toInt ≤ right.raw.toInt then left else right

/-- The larger of two coordinates. -/
def greater (left right : Fixed) : Fixed :=
  if right.raw.toInt ≤ left.raw.toInt then left else right

theorem toInt_raw_lesser (left right : Fixed) :
    (left.lesser right).raw.toInt = min left.raw.toInt right.raw.toInt := by
  unfold lesser
  split_ifs <;> omega

theorem toInt_raw_greater (left right : Fixed) :
    (left.greater right).raw.toInt = max left.raw.toInt right.raw.toInt := by
  unfold greater
  split_ifs <;> omega

theorem toFloat_lesser (left right : Fixed) :
    (left.lesser right).toFloat =
      if left.toFloat ≤ right.toFloat then left.toFloat else right.toFloat := by
  simp only [lesser, toFloat_le_iff, apply_ite toFloat]

theorem toFloat_greater (left right : Fixed) :
    (left.greater right).toFloat =
      if left.toFloat ≥ right.toFloat then left.toFloat else right.toFloat := by
  simp only [greater, ge_iff_le, toFloat_le_iff, apply_ite toFloat]

end Fixed

namespace FixedVector

/-- How many steps a vector goes along an axis. -/
def steps (axis : Axis) (vector : FixedVector) : Int :=
  match axis with
  | .x => vector.x.raw.toInt
  | .y => vector.y.raw.toInt
  | .z => vector.z.raw.toInt

/-- Combines two vectors component by component. -/
def zipWith (combine : Fixed → Fixed → Fixed) (left right : FixedVector) : FixedVector :=
  ⟨combine left.x right.x, combine left.y right.y, combine left.z right.z⟩

theorem toFloat_lower (left right : FixedVector) :
    left.toFloat.lower right.toFloat = (left.zipWith .lesser right).toFloat := by
  unfold FloatVector.lower zipWith toFloat
  rw [Fixed.toFloat_lesser, Fixed.toFloat_lesser, Fixed.toFloat_lesser]

theorem toFloat_upper (left right : FixedVector) :
    left.toFloat.upper right.toFloat = (left.zipWith .greater right).toFloat := by
  unfold FloatVector.upper zipWith toFloat
  rw [Fixed.toFloat_greater, Fixed.toFloat_greater, Fixed.toFloat_greater]

theorem ofFloat_toFloat (vector : FixedVector) : ofFloat vector.toFloat = vector := by
  simp only [ofFloat, toFloat, Fixed.ofFloat_toFloat]

variable {combine : FloatVector → FloatVector → FloatVector} {choose : Fixed → Fixed → Fixed}
  {pick : Int → Int → Int}

/-- Folding doubles of positions is folding the positions. -/
theorem foldl_toFloat
    (alike : ∀ left right : FixedVector,
      combine left.toFloat right.toFloat = (left.zipWith choose right).toFloat)
    (first : FixedVector) (rest : List FixedVector) :
    (rest.map toFloat).foldl combine first.toFloat = (rest.foldl (zipWith choose) first).toFloat := by
  rw [List.foldl_map]
  exact List.foldl_hom toFloat alike

/-- Folding positions is folding their steps along every axis. -/
theorem steps_foldl
    (picks : ∀ left right : Fixed,
      (choose left right).raw.toInt = pick left.raw.toInt right.raw.toInt)
    (axis : Axis) (first : FixedVector) (rest : List FixedVector) :
    (rest.foldl (zipWith choose) first).steps axis =
      (rest.map (steps axis)).foldl pick (first.steps axis) := by
  rw [List.foldl_map]
  refine (List.foldl_hom (steps axis) fun left right => ?_).symm
  cases axis with
  | x => exact (picks left.x right.x).symm
  | y => exact (picks left.y right.y).symm
  | z => exact (picks left.z right.z).symm

end FixedVector

namespace Bounds

theorem ofFaces_eq (faces : List Face) :
    ofFaces faces = ofPositions ((positionsOf faces).map FixedVector.toFloat) := by
  unfold ofFaces positionsOf
  rw [List.map_flatMap]
  simp only [List.map_map, Function.comp_def]

theorem lower_ofPositions (first : FixedVector) (rest : List FixedVector) :
    (ofPositions ((first :: rest).map FixedVector.toFloat)).lower =
      rest.foldl (FixedVector.zipWith .lesser) first := by
  rw [← FixedVector.ofFloat_toFloat (rest.foldl _ first),
    ← FixedVector.foldl_toFloat FixedVector.toFloat_lower]
  rfl

theorem upper_ofPositions (first : FixedVector) (rest : List FixedVector) :
    (ofPositions ((first :: rest).map FixedVector.toFloat)).upper =
      rest.foldl (FixedVector.zipWith .greater) first := by
  rw [← FixedVector.ofFloat_toFloat (rest.foldl _ first),
    ← FixedVector.foldl_toFloat FixedVector.toFloat_upper]
  rfl

/-- The lower corner of a box has the least coordinate of all positions along every axis, and the
upper corner the greatest. -/
theorem corners_exact {faces : List Face} (nonempty : positionsOf faces ≠ []) (axis : Axis) :
    ((positionsOf faces).map (FixedVector.steps axis)).min? =
        some ((ofFaces faces).lower.steps axis) ∧
      ((positionsOf faces).map (FixedVector.steps axis)).max? =
        some ((ofFaces faces).upper.steps axis) := by
  obtain ⟨first, rest, positions⟩ := List.exists_cons_of_ne_nil nonempty
  rw [ofFaces_eq, positions, lower_ofPositions, upper_ofPositions,
    FixedVector.steps_foldl Fixed.toInt_raw_lesser,
    FixedVector.steps_foldl Fixed.toInt_raw_greater]
  exact ⟨List.min?_cons', List.max?_cons'⟩

/-- The center of a box is in the middle of its corners. -/
theorem steps_center (bounds : Bounds) (axis : Axis) :
    bounds.center.steps axis = halved (bounds.lower.steps axis + bounds.upper.steps axis) := by
  cases axis with
  | x => exact Fixed.toInt_raw_middle _ _
  | y => exact Fixed.toInt_raw_middle _ _
  | z => exact Fixed.toInt_raw_middle _ _

end Bounds

/-- Along every axis a box goes from the least to the greatest coordinate of some positions.  The
center is halfway between, a half step going away from zero, and does not leave the box. -/
structure ExactBox (positions : List FixedVector) (lower upper center : FixedVector) : Prop where
  least : ∀ axis, (positions.map (FixedVector.steps axis)).min? = some (lower.steps axis)
  greatest : ∀ axis, (positions.map (FixedVector.steps axis)).max? = some (upper.steps axis)
  halfway : ∀ axis, center.steps axis = halved (lower.steps axis + upper.steps axis)
  inside : ∀ axis, lower.steps axis ≤ center.steps axis ∧ center.steps axis ≤ upper.steps axis

/-- The box of a submodel with vertices is exact, over the whole range of coordinates. -/
theorem Submodel.box_is_exact (submodel : Submodel) (nonempty : positionsOf submodel.faces ≠ []) :
    ExactBox (positionsOf submodel.faces) (Bounds.ofFaces submodel.faces).lower
      (Bounds.ofFaces submodel.faces).upper submodel.center := by
  have corners := Bounds.corners_exact nonempty
  have center : ∀ axis, submodel.center.steps axis =
      halved ((Bounds.ofFaces submodel.faces).lower.steps axis +
        (Bounds.ofFaces submodel.faces).upper.steps axis) :=
    Bounds.steps_center (Bounds.ofFaces submodel.faces)
  refine ⟨fun axis => (corners axis).1, fun axis => (corners axis).2, center, ?_⟩
  intro axis
  obtain ⟨least, greatest⟩ := corners axis
  have ordered : (Bounds.ofFaces submodel.faces).lower.steps axis ≤
      (Bounds.ofFaces submodel.faces).upper.steps axis :=
    (List.max?_eq_some_iff.mp greatest).2 _ (List.min?_mem least)
  rw [center]
  exact ⟨le_halved ordered, halved_le ordered⟩

section Example

/-- A triangle that reaches from one end of the coordinates to the other along the last axis, and
close to either end along the others. -/
def farTriangle : Submodel where
  faces := [.plainTriangle ⟨⟨-2147483648⟩, ⟨2147483646⟩, ⟨-2147483648⟩⟩
    ⟨⟨-2147483647⟩, ⟨2147483647⟩, .zero⟩ ⟨⟨-2147483648⟩, ⟨2147483646⟩, ⟨2147483647⟩⟩
    ⟨.one, .zero, .zero⟩ (.flat 1)]

/-- Along the first two axes the sum of the corners is out of range, and along none of the three
can it be halved without rounding. -/
theorem farTriangle_box_is_exact :
    positionsOf farTriangle.faces ≠ [] ∧
      (Bounds.ofFaces farTriangle.faces).lower =
        ⟨⟨-2147483648⟩, ⟨2147483646⟩, ⟨-2147483648⟩⟩ ∧
      (Bounds.ofFaces farTriangle.faces).upper =
        ⟨⟨-2147483647⟩, ⟨2147483647⟩, ⟨2147483647⟩⟩ ∧
      farTriangle.center = ⟨⟨-2147483648⟩, ⟨2147483647⟩, ⟨-1⟩⟩ ∧
      ExactBox (positionsOf farTriangle.faces) (Bounds.ofFaces farTriangle.faces).lower
        (Bounds.ofFaces farTriangle.faces).upper farTriangle.center := by
  have nonempty : positionsOf farTriangle.faces ≠ [] := by decide
  exact ⟨nonempty, by decide +kernel, by decide +kernel, by decide +kernel,
    farTriangle.box_is_exact nonempty⟩

end Example

end PaintOrder
