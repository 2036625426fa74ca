import PaintOrder.Code.Execution
import PaintOrder.Model.Hierarchy

/-!
# Recovering models from code

An execution leaves a bucket of faces for every submodel that was called.  They become a
model if no number below the highest one is missing.  The links are made afterwards, because
a child can have a lower number than its parent.
-/

namespace PaintOrder

open Code

namespace Model

/-- The buckets of all submodels, unless one was never called. -/
def allBuckets (buckets : List (Option Bucket)) : Except FormatError (List Bucket) :=
  buckets.zipIdx.mapM fun (bucket?, index) =>
    match bucket? with
    | some bucket => .ok bucket
    | none => .error (.missingSubmodel index)

def submodelOf (bucket : Bucket) : Submodel :=
  { offset := bucket.offset, entry := bucket.entry, faces := bucket.faces.toList }

/-- Attaches every submodel to the one that called it, in the order of their numbers. -/
def link (model : Model) (buckets : List Bucket) : Except StructuralError Model :=
  buckets.zipIdx.foldlM
    (fun model (bucket, index) =>
      match bucket.parent with
      | none => .ok model
      | some parent => model.attach parent index)
    model

/-- The model that executions of some code have recovered. -/
def ofRecovery (data : Array UInt8) (recovery : Recovery) : Except Error Model := do
  let buckets ← allBuckets recovery.buckets.toList
  let unlinked : Model := { submodels := (buckets.map submodelOf).toArray, data := data }
  let linked ← unlinked.link buckets
  return linked.updateBounds

/-- The model whose root submodel has its code at an entry. -/
def decompileAt (data : Array UInt8) (entry : Nat) : Except Error Model :=
  match (Execution.fromEntry data entry).run (.start data) with
  | .error error _ => .error error
  | .ok _ recovery => ofRecovery data recovery

def decompile (data : Array UInt8) : Except Error Model :=
  decompileAt data 0

end Model

end PaintOrder
