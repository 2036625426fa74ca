import PaintOrder.Geometry.Cut
import PaintOrder.Partition.Splitter
import PaintOrder.Partition.Tree

/-!
# Building partitions

A list of faces becomes a tree by choosing a splitter, dividing the faces along its plane
and building both sides in turn; faces that need no splitter form a leaf.  The splitter
itself goes to the front, and a face that spans the plane is cut in two.

Nothing in the rule makes the lists shorter: with a normal far from length one, a fragment
can span the plane that cut it.  The caller therefore says how deeply splits may nest, and
running into that limit is an outcome of its own.
-/

namespace PaintOrder

/-- The faces on either side of a plane, in their original order. -/
structure Division where
  front : List Face
  back : List Face
  deriving DecidableEq, Repr

namespace Division

/-- The two sides of a list of faces, each face cut if it spans the plane. -/
def ofFaces (plane : Plane) : List Face → Except StructuralError Division
  | [] => .ok ⟨[], []⟩
  | face :: rest => do
      let pieces ← face.cut plane
      let division ← ofFaces plane rest
      return ⟨pieces.front?.toList ++ division.front, pieces.back?.toList ++ division.back⟩

/-- The two sides of a list of faces along the plane of one of them, which itself stays in
front whole. -/
def onSplitter (faces : List Face) (splitter : Fin faces.length) :
    Except StructuralError Division := do
  let plane := (faces.get splitter).plane
  let before ← ofFaces plane (faces.take splitter)
  let after ← ofFaces plane (faces.drop (splitter + 1))
  return ⟨before.front ++ faces.get splitter :: after.front, before.back ++ after.back⟩

end Division

/-- The tree of a list of faces, with splits nested less than `limit` deep. -/
def Tree.build (select : Selector) : (limit : Nat) → List Face → Except Error Tree
  | 0, _ => .error .unfinished
  | limit + 1, faces =>
      match select faces with
      | none => .ok (.leaf faces)
      | some splitter => do
          let division ← Division.onSplitter faces splitter
          if division.back.isEmpty then throw (.structural .oneSidedNode)
          let front ← build select limit division.front
          let back ← build select limit division.back
          return .split (faces.get splitter).plane front back

/-- Checks every face of a list, labelling it with its place in the list. -/
def validateFaces (faces : List Face) : Except StructuralError Unit :=
  faces.zipIdx.forM fun (face, index) => face.validate index

/-- The partition of a list of faces, each of which must be a proper polygon. -/
def Partition.build (limit : Nat) (select : Selector) (faces : List Face) :
    Except Error Partition :=
  if faces.isEmpty then
    .ok {}
  else do
    validateFaces faces
    let tree ← Tree.build select limit faces
    return { root? := some tree }

end PaintOrder
