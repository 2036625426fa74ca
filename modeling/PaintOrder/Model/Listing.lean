import PaintOrder.Model.Basic

/-!
# Listings of models

A listing names every submodel with its parent, its entry, its offset and its bounds, and on
demand every face with its surface, its normal and its vertices.
-/

namespace PaintOrder

/-- A number in base sixteen, with at least four digits. -/
def hexText (number : Nat) : String :=
  let digits := Nat.toDigits 16 number
  String.ofList ('0' :: 'x' :: (List.replicate (4 - digits.length) '0' ++ digits))

/-- A palette color in base sixteen, or the number of a texture. -/
def Surface.text : Surface → String
  | .flat color => "flat " ++ hexText color.toNat
  | .textured texture => s!"texture {texture.toNat}"

def Face.text (face : Face) : String :=
  let positions := face.vertices.map fun vertex => vertex.position.text
  s!"{face.surface.text} normal {face.normal.text}: " ++ String.intercalate " " positions

namespace Submodel

/-- The lines about a submodel that do not show its faces. -/
def headingLines (index : Nat) (submodel : Submodel) : List String :=
  let parent := (submodel.parent.map toString).getD "-"
  let entry := hexText submodel.entry
  let bounds := submodel.bounds
  [s!"submodel {index} parent {parent} at {entry} offset {submodel.offset.text} " ++
      s!"faces {submodel.faces.length}",
    s!"  bounds {bounds.lower.text} .. {bounds.upper.text} radius {bounds.radius.text}"]

def faceLines (submodel : Submodel) : List String :=
  submodel.faces.map fun face => "  " ++ face.text

end Submodel

namespace Model

def listingLines (model : Model) (showFaces : Bool) : List String :=
  model.submodels.toList.zipIdx.flatMap fun (submodel, index) =>
    submodel.headingLines index ++ if showFaces then submodel.faceLines else []

/-- A listing, every line of it ended. -/
def listing (model : Model) (showFaces : Bool) : String :=
  String.join <| (model.listingLines showFaces).map (· ++ "\n")

end Model

end PaintOrder
