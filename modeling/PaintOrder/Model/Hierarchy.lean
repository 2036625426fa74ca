import PaintOrder.Model.Basic

/-!
# The hierarchy of submodels

A link between a parent and a child is recorded on both sides.  Links are made by attaching,
which moves a child that already has a parent.  A hierarchy is valid if the first submodel
is the only root, both sides of every link agree and every submodel is reached from the root
exactly once; the last is checked by a search with a stack of submodels still to visit.
-/

namespace PaintOrder.Model

def alter (model : Model) (index : Nat) (change : Submodel → Submodel) : Model :=
  { model with submodels := model.submodels.modify index change }

/-- Takes a child out of the list of its parent, if it has one. -/
def detach (model : Model) (child : Nat) : Model :=
  match (model.submodel child).parent with
  | none => model
  | some parent =>
      model.alter parent fun submodel =>
        { submodel with children := submodel.children.filter (· ≠ child) }

def setParent (parent : Nat) (submodel : Submodel) : Submodel :=
  { submodel with parent := some parent }

/-- Adds a child at the end of a submodel's list, unless it is there. -/
def addChild (child : Nat) (submodel : Submodel) : Submodel :=
  if submodel.children.contains child then submodel
  else { submodel with children := submodel.children ++ [child] }

/-- Makes one submodel a child of another, on both sides of the link. -/
def attach (model : Model) (parent child : Nat) : Except StructuralError Model :=
  if model.size ≤ parent ∨ model.size ≤ child then
    .error (.brokenLink parent child)
  else if parent = child then
    .error (.cycle child)
  else
    .ok (((model.detach child).alter child (setParent parent)).alter parent (addChild child))

/-- Adds a submodel under a parent, or without one, and tells its place. -/
def addSubmodel (model : Model) (parent : Option Nat) (submodel : Submodel) :
    Except StructuralError (Model × Nat) :=
  let index := model.size
  let added : Model :=
    { model with submodels := model.submodels.push { submodel with parent := none } }
  match parent with
  | none => .ok (added, index)
  | some parent =>
      if index ≤ parent then .error (.orphan index)
      else do
        let attached ← added.attach parent index
        return (attached, index)

/-- What is wrong with the link of a submodel to its parent, if anything. -/
def linkFault? (model : Model) (child : Nat) : Option StructuralError :=
  match (model.submodel child).parent with
  | none => some (.orphan child)
  | some parent =>
      if model.size ≤ parent then some (.orphan child)
      else if (model.submodel parent).children.contains child then none
      else some (.brokenLink parent child)

/-- Whether a child that a submodel lists names it as its parent. -/
def acknowledges (model : Model) (parent child : Nat) : Bool :=
  child < model.size && (model.submodel child).parent = some parent

/-- Visits the submodels on a stack and all below them, and tells which ones were seen. -/
def search (model : Model) (seen : Array Bool) :
    List Nat → Except StructuralError (Array Bool)
  | [] => .ok seen
  | index :: stack =>
      if inRange : index < seen.size then
        if seen[index] then .error (.cycle index)
        else
          let children := (model.submodel index).children
          match children.find? fun child => !model.acknowledges index child with
          | some child => .error (.brokenLink index child)
          | none => search model (seen.set index true) (children.reverse ++ stack)
      else
        .error (.cycle index)
termination_by seen.count false
decreasing_by
  have unseen : seen[index] = false := by simp_all
  have positive : 0 < seen.count false :=
    Array.count_pos_iff.mpr (unseen ▸ Array.getElem_mem inRange)
  have fewer : (seen.set index true).count false = seen.count false - 1 := by
    rw [Array.count_set inRange, unseen]
    rfl
  omega

/-- Checks that the submodels form one tree under the first of them. -/
def validateHierarchy (model : Model) : Except StructuralError Unit := do
  if model.submodels.isEmpty then throw .emptyHierarchy
  if (model.submodel 0).parent.isSome then throw .rootHasParent
  match (List.range' 1 (model.size - 1)).findSome? model.linkFault? with
  | some fault => throw fault
  | none => pure ()
  let seen ← model.search (Array.replicate model.size false) [0]
  match seen.findIdx? (!·) with
  | some child => throw (.orphan child)
  | none => pure ()

end PaintOrder.Model
