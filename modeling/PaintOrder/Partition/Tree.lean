import PaintOrder.Geometry.Face

/-!
# Partition trees

A partition tree orders the faces of one submodel.  A leaf holds faces that may be drawn in
any order, and a split has a plane with a tree on either side.  Trees are walked depth
first, the front of a split before its back; that is the order in which faces are numbered
and written.
-/

namespace PaintOrder

/-- A tree of splits over faces. -/
inductive Tree where
  | leaf (faces : List Face)
  | split (plane : Plane) (front back : Tree)
  deriving DecidableEq, Repr, Inhabited

namespace Tree

def isLeaf : Tree → Bool
  | leaf _ => true
  | split .. => false

def plane? : Tree → Option Plane
  | leaf _ => none
  | split plane _ _ => some plane

def leafFaces? : Tree → Option (List Face)
  | leaf faces => some faces
  | split .. => none

def faces : Tree → List Face
  | leaf faces => faces
  | split _ front back => front.faces ++ back.faces

/-- Visits the leaves one after the other. -/
def walk {State : Type} (visit : State → List Face → State) (state : State) : Tree → State
  | leaf faces => visit state faces
  | split _ front back => back.walk visit (front.walk visit state)

def faceCount : Tree → Nat
  | leaf faces => faces.length
  | split _ front back => front.faceCount + back.faceCount

/-- The number of nodes on the longest way down. -/
def depth : Tree → Nat
  | leaf _ => 1
  | split _ front back => 1 + max front.depth back.depth

/-- Whether some face of a list spans the plane of another one. -/
def hasSpanningFace (faces : List Face) : Bool :=
  (List.finRange faces.length).any fun splitter =>
    (faces.eraseIdx splitter).any fun face =>
      face.placement (faces.get splitter).plane = .spanning

/-- Checks that every split has a usable plane and that no leaf needs another split. -/
def validate : Tree → Except StructuralError Unit
  | leaf faces => if hasSpanningFace faces then .error .spanningFaceInLeaf else .ok ()
  | split plane front back => do
      if plane.isDegenerate then throw .degenerateSplitter
      front.validate
      back.validate

end Tree

/-- The faces of one submodel in order: a tree, or nothing if there are no faces. -/
structure Partition where
  root? : Option Tree := none
  deriving DecidableEq, Repr, Inhabited

namespace Partition

def isEmpty (partition : Partition) : Bool :=
  partition.root?.isNone

def faces (partition : Partition) : List Face :=
  (partition.root?.map Tree.faces).getD []

/-- Visits the leaves one after the other, if there is a tree. -/
def walk {State : Type} (visit : State → List Face → State) (state : State)
    (partition : Partition) : State :=
  match partition.root? with
  | none => state
  | some tree => tree.walk visit state

def faceCount (partition : Partition) : Nat :=
  (partition.root?.map Tree.faceCount).getD 0

/-- The number of nodes on the longest way down, zero without a tree. -/
def depth (partition : Partition) : Nat :=
  (partition.root?.map Tree.depth).getD 0

def validate (partition : Partition) : Except StructuralError Unit :=
  match partition.root? with
  | none => .ok ()
  | some tree => tree.validate

end Partition

end PaintOrder
