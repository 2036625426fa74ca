import PaintOrder.Geometry.Face

/-!
# Choosing a splitter

A set of faces is split along the plane of one of them.  A selector names that face, or
says that no face is worth splitting on.  The selector of least cost counts, for every
candidate, the other faces on each side of its plane: the cost is the imbalance of the
sides plus a penalty for every face that would be cut.  A candidate that cuts nothing and
has all other faces on one side is rejected, and of equally cheap ones the first is taken.
-/

namespace PaintOrder

/-- A rule that picks a face to split on out of a list, if any is worth it. -/
abbrev Selector := (faces : List Face) → Option (Fin faces.length)

namespace Splitter

/-- The penalty for a cut face unless another is asked for. -/
def defaultSpanWeight : Nat := 6

/-- The places of all faces but the candidate, relative to the candidate's plane. -/
def placements (faces : List Face) (candidate : Fin faces.length) : List Placement :=
  (faces.eraseIdx candidate).map fun face => face.placement (faces.get candidate).plane

/-- The cost of splitting when the other faces lie as given; `none` rejects the split. -/
def costOfPlacements (spanWeight : Nat) (others : List Placement) : Option Nat :=
  let front := others.count .front
  let back := others.count .back
  let spanning := others.count .spanning
  if spanning = 0 && (front = 0 || back = 0) then none
  else some ((front - back) + (back - front) + spanWeight * spanning)

/-- The cost of splitting on a candidate; `none` rejects it. -/
def cost? (spanWeight : Nat) (faces : List Face) (candidate : Fin faces.length) : Option Nat :=
  costOfPlacements spanWeight (placements faces candidate)

/-- The candidates that are not rejected, in order, with their costs. -/
def accepted (spanWeight : Nat) (faces : List Face) : List (Fin faces.length × Nat) :=
  (List.finRange faces.length).filterMap fun candidate =>
    (cost? spanWeight faces candidate).map fun cost => (candidate, cost)

/-- Picks the first of the cheapest candidates. -/
def leastCost (spanWeight : Nat) : Selector := fun faces =>
  ((accepted spanWeight faces).minOn? Prod.snd).map Prod.fst

end Splitter

end PaintOrder
