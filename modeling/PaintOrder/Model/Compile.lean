import PaintOrder.Code.Emitter
import PaintOrder.Model.Hierarchy
import PaintOrder.Model.Nesting
import PaintOrder.Partition.Build

/-!
# Compiling models

The code of a submodel is its points, then one sort for every child, nearest first, and
then the tree of its own faces.  In front of a sort's plane stands the call of the child with
the child's own code right behind it; behind the plane the rest goes on:

    points, sort, stop, call, stop, code of the child, rest

Vertex numbers run on through all submodels.  A model changes only if all of it compiles.
-/

namespace PaintOrder

open Code

/-- What a caller can choose about the code of a model. -/
structure CompileOptions where
  /-- The penalty for a cut face when splitters are compared. -/
  spanWeight : Nat := Splitter.defaultSpanWeight
  /-- The greatest size of the code. -/
  scratchSize : Nat := 32768
  deriving DecidableEq, Repr

namespace Model

/-- Writes the children of a submodel that are left, and then its own faces. -/
def writeNested (model : Model) (writeChild : Nat → Emission Unit) (parent : Nat)
    (partition : Partition) (table : VertexTable) : List Nat → Emission Unit
  | [] =>
      match partition.root? with
      | some tree => Emission.writeTree table tree
      | none => Emission.writeStop
  | child :: rest => do
      let sort ← Emission.writeSort (model.separatingPlane parent child)
      Emission.writeStop
      let frontStart ← Emission.position
      let call ← Emission.writeCall child (model.submodel child).offset
      Emission.writeStop
      Emission.patch call callJumpField (← Emission.position)
      writeChild child
      let backStart ← Emission.position
      writeNested model writeChild parent partition table rest
      Emission.patch sort sortBackField backStart
      Emission.patch sort sortFrontField frontStart

/-- Writes a submodel and everything below it, at most `levels` levels deep.  In a valid
hierarchy there are no more levels than submodels. -/
def writeSubmodel (limit : Nat) (select : Selector) (model : Model) :
    (levels : Nat) → (index : Nat) → Emission Unit
  | 0, _ => throw .unfinished
  | levels + 1, index => do
      let start ← Emission.position
      if 32767 < start then throw (.capacity (.positionOutOfRange start))
      modify fun emitter => { emitter with entries := emitter.entries.setIfInBounds index start }
      let partition ← Partition.build limit select (model.submodel index).faces
      partition.validate
      let table := VertexTable.insertFaces { base := (← get).nextVertex } partition.faces
      modify fun emitter => { emitter with nextVertex := table.finish }
      Emission.writePoints table
      writeNested model (writeSubmodel limit select model levels) index partition table
        (model.nestingOrder index)

/-- Compiles a model with a given selector.  Splits may nest less than `limit` deep. -/
def compileWith (limit scratchSize : Nat) (select : Selector) (model : Model) :
    Except Error Model := do
  model.validateHierarchy
  let emitter : Emitter := { entries := Array.replicate model.size 0 }
  match (writeSubmodel limit select model model.size 0).run emitter with
  | .error error _ => throw error
  | .ok _ emitter =>
      let data ← emitter.finish scratchSize
      let submodels := model.submodels.zipWith
        (fun submodel entry => { submodel with entry := entry }) emitter.entries
      return updateBounds { submodels := submodels, data := data }

/-- Compiles a model with the selector of least cost. -/
def compile (limit : Nat) (options : CompileOptions) (model : Model) : Except Error Model :=
  model.compileWith limit options.scratchSize (Splitter.leastCost options.spanWeight)

end Model

end PaintOrder
