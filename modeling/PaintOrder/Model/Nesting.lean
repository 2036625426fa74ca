import PaintOrder.Model.Basic

/-!
# Nesting children into their parent

The calls of a submodel's children are wrapped in sorts, nearest child first.  Nearness is
the distance from the middle of the parent to the child, children at equal distances keep
their order, and the plane of a sort passes halfway between parent and child.
-/

namespace PaintOrder

/-- Repeatedly takes the first of the nearest out of a list of numbers with keys. -/
def nearestFirst (remaining : List (Nat × Int)) : List (Nat × Int) :=
  match _found : remaining.minOn? Prod.snd with
  | none => []
  | some nearest => nearest :: nearestFirst (remaining.erase nearest)
termination_by remaining.length
decreasing_by
  have member : nearest ∈ remaining := List.minOn?_mem _found
  have positive := List.length_pos_of_mem member
  rw [List.length_erase_of_mem member]
  omega

/-- The plane halfway between two points, facing from the first to the second; between
points that are too close to have a direction it faces along the third axis. -/
def Plane.halfway (near far : FixedVector) : Plane :=
  let start := near.toFloat
  let finish := far.toFloat
  let point := FixedVector.ofFloat ((start + finish).unscale 2)
  let axis : FixedVector := ⟨.zero, .zero, .one⟩
  let normal :=
    match (finish - start).normalize? with
    | none => axis
    | some direction =>
        let rounded := FixedVector.ofFloat direction
        if rounded.isZero then axis else rounded
  ⟨point, normal⟩

namespace Model

/-- How far each child of a submodel is, as a key that orders distances. -/
def childKeys (model : Model) (parent : Nat) : List (Nat × Int) :=
  let origin := (model.submodel parent).center
  (model.submodel parent).children.map fun child =>
    (child, Binary64.orderKey (origin.distance (model.submodel child).representativePoint))

def nestingOrder (model : Model) (parent : Nat) : List Nat :=
  (nearestFirst (model.childKeys parent)).map Prod.fst

/-- The plane that separates a child from the rest of its parent. -/
def separatingPlane (model : Model) (parent child : Nat) : Plane :=
  .halfway (model.submodel parent).center (model.submodel child).representativePoint

end Model

end PaintOrder
