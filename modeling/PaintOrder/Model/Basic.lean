import PaintOrder.Geometry.Face

/-!
# Models

A model is a list of submodels and the code compiled from them.  Every submodel has its own
frame, placed in its parent's frame by an offset; submodels refer to each other by their
place in the list, and the first one is the root.
-/

namespace PaintOrder

/-- A box around a set of vertices, and their greatest distance from the origin. -/
structure Bounds where
  lower : FixedVector := .zero
  upper : FixedVector := .zero
  radius : Fixed := .zero
  deriving DecidableEq, Repr, Inhabited

namespace Bounds

/-- The bounds of a list of positions, all zero if there are none. -/
def ofPositions : List FloatVector → Bounds
  | [] => {}
  | first :: rest =>
      let lower := rest.foldl FloatVector.lower first
      let upper := rest.foldl FloatVector.upper first
      let radius := rest.foldl
        (fun radius position =>
          let length := position.norm
          if radius < length then length else radius)
        first.norm
      ⟨.ofFloat lower, .ofFloat upper, .ofFloat radius⟩

def ofFaces (faces : List Face) : Bounds :=
  ofPositions <| faces.flatMap fun face =>
    face.vertices.map fun vertex => vertex.position.toFloat

def center (bounds : Bounds) : FixedVector :=
  .ofFloat ((bounds.lower.toFloat + bounds.upper.toFloat).unscale 2)

end Bounds

/-- A rigid part of a model. -/
structure Submodel where
  /-- Where the frame of the submodel stands in its parent's frame. -/
  offset : FixedVector := .zero
  /-- The bounds recorded when the model was last compiled or recovered. -/
  bounds : Bounds := {}
  entry : Nat := 0
  parent : Option Nat := none
  children : List Nat := []
  faces : List Face := []
  deriving DecidableEq, Repr, Inhabited

namespace Submodel

/-- The middle of the faces in the submodel's own frame. -/
def center (submodel : Submodel) : FixedVector :=
  (Bounds.ofFaces submodel.faces).center

/-- Where the submodel is, seen from its parent's frame. -/
def representativePoint (submodel : Submodel) : FixedVector :=
  submodel.offset + submodel.center

end Submodel

/-- Submodels and the code compiled from them. -/
structure Model where
  submodels : Array Submodel := #[]
  data : Array UInt8 := #[]
  deriving DecidableEq, Repr, Inhabited

namespace Model

def ofFaces (faces : List Face) : Model where
  submodels := #[{ faces := faces }]

def size (model : Model) : Nat :=
  model.submodels.size

/-- The submodel at a place; one that does not exist reads as an empty one. -/
def submodel (model : Model) (index : Nat) : Submodel :=
  model.submodels.getD index {}

def root? (model : Model) : Option Nat :=
  if model.submodels.isEmpty then none else some 0

def faceCount (model : Model) : Nat :=
  (model.submodels.toList.flatMap Submodel.faces).length

/-- Records the bounds of every submodel anew. -/
def updateBounds (model : Model) : Model :=
  { model with
    submodels := model.submodels.map fun submodel =>
      { submodel with bounds := .ofFaces submodel.faces } }

end Model

end PaintOrder
