import PaintOrder.Model.Compile
import PaintOrder.Proofs.Code.Trees

/-!
# The code of a model

The compiler writes a submodel as its points, a sort for every child, nearest first, with a
call of the child in front and everything else behind, and at last the tree of its own faces.
Vertex numbers run on from one submodel to the next in the order in which they are written.
-/

namespace PaintOrder.Model

open Code

/-- The partition of a submodel, empty if none can be built. -/
def partitionOf (limit : Nat) (select : Selector) (model : Model) (index : Nat) : Partition :=
  (Partition.build limit select (model.submodel index).faces).toOption.getD {}

/-- The vertices of a submodel, numbered from a base on. -/
def tableOf (limit : Nat) (select : Selector) (model : Model) (index base : Nat) :
    VertexTable :=
  .insertFaces { base := base } (model.partitionOf limit select index).faces

/-- The code of a submodel: its points and what follows them. -/
def submodelCode (limit : Nat) (select : Selector) (model : Model) (index base : Nat)
    (rest : Assembly) : Assembly :=
  .points base (model.tableOf limit select index base).positions.toList rest

/-- What is written of a submodel after its points, given the children that are left: the
code and the vertex number that is free afterwards. -/
inductive Nested (limit : Nat) (select : Selector) (model : Model) :
    (owner base : Nat) → (order : List Nat) → (first : Nat) → Assembly → (finish : Nat) → Prop
  | own {owner base first : Nat}
      (built : Partition.build limit select (model.submodel owner).faces =
        .ok (model.partitionOf limit select owner))
      (writable : ∀ face ∈ (model.partitionOf limit select owner).faces,
        Emission.Writable (model.tableOf limit select owner base) face) :
      Nested limit select model owner base [] first
        (.ofPartition (model.tableOf limit select owner base)
          (model.partitionOf limit select owner)) first
  | nest {owner base child first middle finish : Nat} {order : List Nat}
      {code rest : Assembly}
      (callee : Nested limit select model child first (model.nestingOrder child)
        (model.tableOf limit select child first).finish code middle)
      (later : Nested limit select model owner base order middle rest finish) :
      Nested limit select model owner base (child :: order) first
        (.sort (model.separatingPlane owner child)
          (.call child (model.submodel child).offset
            (model.submodelCode limit select child first code))
          rest) finish

/-- How deeply the code nests in which children are called one after the other, each behind
the sort of the one before, and a partition comes last. -/
def nestedDepth (childDepth : Nat → Nat) (own : Nat) : List Nat → Nat
  | [] => own
  | child :: rest => max (childDepth child + 2) (nestedDepth childDepth own rest + 1)

/-- How deeply sorts and calls nest in the code of a submodel, at most `levels` levels of
submodels deep. -/
def nestingDepth (limit : Nat) (select : Selector) (model : Model) :
    (levels index : Nat) → Nat
  | 0, _ => 0
  | levels + 1, index =>
      nestedDepth (nestingDepth limit select model levels)
        ((model.partitionOf limit select index).depth - 1) (model.nestingOrder index)

end PaintOrder.Model

namespace PaintOrder.Code

namespace Assembly

/-- The submodels that are called, with where their code starts. -/
def entries : Assembly → Nat → List (Nat × Nat)
  | stop, _ => []
  | points _ positions rest, address => rest.entries (address + pointsSize positions.length)
  | draw polygon rest, address =>
      rest.entries (address + polygonSize polygon.corners.length polygon.surface.isTextured)
  | sort _ front back, address =>
      front.entries (address + frontJump) ++
        back.entries (address + (frontJump + front.code.length))
  | call submodel _ callee, address =>
      (submodel, address + callJump) :: callee.entries (address + callJump)

theorem ofFaces_entries (table : VertexTable) (faces : List Face) (address : Nat) :
    (ofFaces table faces).entries address = [] := by
  induction faces generalizing address with
  | nil => rfl
  | cons face rest ih => exact ih _

theorem ofPartition_entries (table : VertexTable) (partition : Partition) (address : Nat) :
    (ofPartition table partition).entries address = [] := by
  have trees : ∀ (tree : Tree) (address : Nat), (ofTree table tree).entries address = [] := by
    intro tree
    induction tree with
    | leaf faces => exact ofFaces_entries table faces
    | split plane front back frontIH backIH =>
        intro address
        simp [ofTree, entries, frontIH, backIH]
  rw [ofPartition]
  split
  · exact trees _ address
  · rfl

end Assembly

def recordEntries (recorded : Array Nat) : List (Nat × Nat) → Array Nat
  | [] => recorded
  | (submodel, entry) :: rest => recordEntries (recorded.setIfInBounds submodel entry) rest

theorem recordEntries_append (recorded : Array Nat) (first second : List (Nat × Nat)) :
    recordEntries recorded (first ++ second) =
      recordEntries (recordEntries recorded first) second := by
  induction first generalizing recorded with
  | nil => rfl
  | cons entry rest ih => exact ih _

theorem recordEntries_size (recorded : Array Nat) (entries : List (Nat × Nat)) :
    (recordEntries recorded entries).size = recorded.size := by
  induction entries generalizing recorded with
  | nil => rfl
  | cons entry rest ih => rw [recordEntries, ih, Array.size_setIfInBounds]

theorem recordEntries_of_absent {recorded : Array Nat} {entries : List (Nat × Nat)}
    {submodel : Nat} (absent : submodel ∉ entries.map Prod.fst) :
    (recordEntries recorded entries)[submodel]? = recorded[submodel]? := by
  induction entries generalizing recorded with
  | nil => rfl
  | cons entry rest ih =>
      simp only [List.map_cons, List.mem_cons, not_or] at absent
      rw [recordEntries, ih absent.2, Array.getElem?_setIfInBounds_ne (Ne.symm absent.1)]

/-- What is recorded once can be looked up. -/
theorem recordEntries_of_mem {recorded : Array Nat} {entries : List (Nat × Nat)}
    {submodel entry : Nat} (distinct : (entries.map Prod.fst).Nodup)
    (member : (submodel, entry) ∈ entries) (inRange : submodel < recorded.size) :
    (recordEntries recorded entries)[submodel]? = some entry := by
  induction entries generalizing recorded with
  | nil => cases member
  | cons first rest ih =>
      rw [List.map_cons, List.nodup_cons] at distinct
      rw [recordEntries]
      rcases List.mem_cons.mp member with rfl | later
      · rw [recordEntries_of_absent distinct.1, Array.getElem?_setIfInBounds_self_of_lt inRange]
      · exact ih distinct.2 later (by rwa [Array.size_setIfInBounds])

end PaintOrder.Code
