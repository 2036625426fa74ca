import PaintOrder.Proofs.Model.Capacity
import PaintOrder.Proofs.Model.Verdict
import PaintOrder.Proofs.Partition.Scoring

/-!
# Why a model is not compiled

What the emitter is given to write it has made itself: the faces of a partition are fragments
of faces that were checked, the planes are planes of such faces, and the table numbers the
vertices of the very faces that are written.  So the emitter's own checks fail only for want
of room, and an error that names a face names one of the input.
-/

namespace PaintOrder

open Code

/-- The face that an error is about, if a face was found to be no proper polygon. -/
def StructuralError.faceLabel? : StructuralError → Option Nat
  | .tooFewVertices face _ | .degenerateFace face | .missingUv face | .strayUv face => some face
  | _ => none

namespace Code.Emission

/-- A step fails for no causes but those that are allowed. -/
structure OnlyFails {α : Type} (allowed : Error → Prop) (step : Emission α) : Prop where
  cause_allowed : ∀ emitter cause result, step.run emitter = .error cause result → allowed cause

variable {allowed : Error → Prop}

namespace OnlyFails

variable {α β : Type}

theorem andThen {step : Emission α} {next : α → Emission β} (first : OnlyFails allowed step)
    (later : ∀ value, OnlyFails allowed (next value)) : OnlyFails allowed (step >>= next) := by
  constructor
  intro emitter cause result failed
  rcases run_bind_eq_error.mp failed with here | ⟨value, between, _, behind⟩
  · exact first.cause_allowed emitter cause result here
  · exact (later value).cause_allowed between cause result behind

theorem never {step : Emission α} (succeeds : ∀ emitter, ∃ value result,
    step.run emitter = .ok value result) : OnlyFails allowed step := by
  constructor
  intro emitter cause result failed
  obtain ⟨value, other, ran⟩ := succeeds emitter
  rw [ran] at failed
  cases failed

theorem pure (value : α) : OnlyFails allowed (pure value : Emission α) :=
  never fun emitter => ⟨value, emitter, rfl⟩

theorem throw {cause : Error} (isAllowed : allowed cause) :
    OnlyFails allowed (throw cause : Emission α) := by
  constructor
  intro emitter cause result failed
  cases failed
  exact isAllowed

/-- What comes behind a check may rely on what the check has found. -/
theorem check {check : Except Error α} {next : α → Emission β}
    (fails : ∀ cause, check = .error cause → allowed cause)
    (later : ∀ value, check = .ok value → OnlyFails allowed (next value)) :
    OnlyFails allowed (liftM check >>= next) := by
  cases check with
  | ok value => exact later value rfl
  | error found =>
      constructor
      intro emitter cause result failed
      cases failed
      exact fails found rfl

theorem write (bytes : List UInt8) : OnlyFails allowed (write bytes) :=
  never fun _ => ⟨(), _, rfl⟩

theorem modify (change : Emitter → Emitter) :
    OnlyFails allowed (modify change : Emission Unit) :=
  never fun _ => ⟨(), _, rfl⟩

theorem position : OnlyFails allowed position :=
  never fun emitter => ⟨_, emitter, rfl⟩

theorem forM {step : α → Emission Unit} {elements : List α}
    (each : ∀ element ∈ elements, OnlyFails allowed (step element)) :
    OnlyFails allowed (elements.forM step) := by
  induction elements with
  | nil => exact .pure ()
  | cons element rest ih =>
      apply (each element (by simp)).andThen
      intro _
      exact ih fun other member => each other (by simp [member])

end OnlyFails

/-- Every vertex of a face has a number in a table, whether or not it fits into a word. -/
def Listed (table : VertexTable) (face : Face) : Prop :=
  ∀ vertex ∈ face.vertices, ∃ number, table.index? vertex.position = some number

section Room

variable (room : ∀ cause, allowed (.capacity cause))
include room

theorem narrow_onlyFails (number : Int) (overflow : CapacityError) :
    OnlyFails allowed (narrow number overflow) := by
  unfold narrow
  cases signedWord? number with
  | none => exact .throw (room overflow)
  | some word => exact .pure word

theorem patch_onlyFails (instruction field target : Nat) :
    OnlyFails allowed (patch instruction field target) := by
  unfold patch
  apply (narrow_onlyFails room _ _).andThen
  intro word
  exact .modify _

theorem writePoints_onlyFails (table : VertexTable) : OnlyFails allowed (writePoints table) := by
  unfold writePoints
  apply (narrow_onlyFails room _ _).andThen
  intro count
  apply (narrow_onlyFails room _ _).andThen
  intro base
  exact (OnlyFails.write _).andThen fun _ => .write _

theorem writeIndex_onlyFails {table : VertexTable} {vertex : Vertex}
    (listed : ∃ number, table.index? vertex.position = some number) :
    OnlyFails allowed (writeIndex table vertex) := by
  obtain ⟨number, isNumber⟩ := listed
  unfold writeIndex
  change OnlyFails allowed (liftM ((table.word? vertex.position).mapError Error.capacity) >>= _)
  apply OnlyFails.check
  · intro cause failed
    obtain ⟨inner, _, rfl⟩ := mapError_eq_error.mp failed
    exact room inner
  · intro found isFound
    rw [mapError_eq_ok, VertexTable.word?, isNumber] at isFound
    cases found with
    | none =>
        dsimp only at isFound
        split at isFound <;> cases isFound
    | some word => exact .write _

theorem writePolygon_onlyFails {table : VertexTable} {face : Face} (listed : Listed table face) :
    OnlyFails allowed (writePolygon table face) := by
  unfold writePolygon
  apply (narrow_onlyFails room _ _).andThen
  intro count
  apply (OnlyFails.write _).andThen
  intro _
  apply OnlyFails.andThen
  · apply OnlyFails.forM
    intro vertex member
    exact writeIndex_onlyFails room (listed vertex member)
  · intro _
    have coordinates : ∀ bytes,
        OnlyFails allowed (if face.isTextured then write bytes else pure ()) := by
      intro bytes
      split_ifs
      · exact .write bytes
      · exact .pure ()
    split_ifs
    · exact (OnlyFails.write _).andThen fun _ => .write _
    · exact OnlyFails.write _
    · exact (OnlyFails.write _)
    · exact .pure ()

theorem writeLeafFace_onlyFails {table : VertexTable} {face : Face} (proper : face.Proper)
    (listed : Listed table face) (label : Nat) :
    OnlyFails allowed (writeLeafFace table face label) := by
  unfold writeLeafFace
  rw [Face.validate_eq_ok_iff.mpr proper]
  exact writePolygon_onlyFails room listed

theorem writeBranches_onlyFails (plane : Plane) {writeFront writeBack : Emission Unit}
    (front : OnlyFails allowed writeFront) (back : OnlyFails allowed writeBack) :
    OnlyFails allowed (writeBranches plane writeFront writeBack) := by
  unfold writeBranches writeSort writeStop
  apply OnlyFails.andThen
  · apply OnlyFails.position.andThen
    intro instruction
    exact (OnlyFails.write _).andThen fun _ => .pure instruction
  · intro sort
    apply (OnlyFails.write _).andThen
    intro _
    apply OnlyFails.position.andThen
    intro frontStart
    apply front.andThen
    intro _
    apply OnlyFails.position.andThen
    intro backStart
    apply back.andThen
    intro _
    apply (patch_onlyFails room _ _ _).andThen
    intro _
    exact patch_onlyFails room _ _ _

/-- A tree of proper polygons with planes that have a direction is not written only for want of
room, if the table has all of its vertices. -/
theorem writeTree_onlyFails {table : VertexTable} {tree : Tree}
    (directed : ∀ plane ∈ tree.planes, plane.isDegenerate = false)
    (proper : ∀ face ∈ tree.faces, face.Proper)
    (listed : ∀ face ∈ tree.faces, Listed table face) :
    OnlyFails allowed (writeTree table tree) := by
  induction tree with
  | leaf faces =>
      unfold writeTree
      apply OnlyFails.andThen
      · apply OnlyFails.forM
        intro entry member
        have inLeaf := List.fst_mem_of_mem_zipIdx member
        exact writeLeafFace_onlyFails room (proper entry.1 inLeaf) (listed entry.1 inLeaf) entry.2
      · intro _
        exact .write _
  | split plane front back frontIH backIH =>
      simp only [Tree.planes, Tree.faces, List.mem_cons, List.mem_append] at directed proper listed
      have usable : ¬plane.isDegenerate := by simp [directed plane (.inl rfl)]
      unfold writeTree
      rw [if_neg usable]
      apply writeBranches_onlyFails room
      · exact frontIH (fun other member => directed other (.inr (.inl member)))
          (fun face member => proper face (.inl member))
          fun face member => listed face (.inl member)
      · exact backIH (fun other member => directed other (.inr (.inr member)))
          (fun face member => proper face (.inr member))
          fun face member => listed face (.inr member)

end Room

end Code.Emission

/-- The check of a face names the face that was checked. -/
theorem Face.faceLabel_of_validate {face : Face} {label : Nat} {fault : StructuralError}
    (faulty : face.validate label = .error fault) : fault.faceLabel? = some label := by
  unfold validate at faulty
  split_ifs at faulty <;> cases faulty <;> rfl

/-- Checking a tree fails at a split without a direction or at a leaf that needs a split. -/
theorem Tree.validate_eq_error {tree : Tree} {cause : StructuralError}
    (failed : tree.validate = .error cause) :
    cause = .spanningFaceInLeaf ∨ ∃ plane ∈ tree.planes, plane.isDegenerate = true := by
  induction tree with
  | leaf faces =>
      unfold validate at failed
      split_ifs at failed
      cases failed
      exact .inl rfl
  | split plane front back frontIH backIH =>
      unfold validate at failed
      split_ifs at failed with degenerate
      · exact .inr ⟨plane, by simp [planes], degenerate⟩
      · rcases bind_eq_error.mp failed with inFront | ⟨_, _, behind⟩
        · apply (frontIH inFront).imp_right
          rintro ⟨other, member, degenerate⟩
          exact ⟨other, by simp [planes, member], degenerate⟩
        · apply (backIH behind).imp_right
          rintro ⟨other, member, degenerate⟩
          exact ⟨other, by simp [planes, member], degenerate⟩

namespace Model

variable {limit : Nat} {select : Selector} {model : Model}

/-- Why a model may be refused.  Its hierarchy or one of its faces is at fault, a cut or a
choice of the selector leaves no tree, or there is no room. -/
inductive Refusal (model : Model) : Error → Prop
  | hierarchy {cause : StructuralError} (faulty : model.HasFault cause) :
      Refusal model (.structural cause)
  | face {index label : Nat} {face : Face} {cause : StructuralError}
      (listed : (model.submodel index).faces[label]? = some face)
      (faulty : face.validate label = .error cause) : Refusal model (.structural cause)
  | degenerateSplit (count : Nat) : Refusal model (.structural (.degenerateSplit count))
  | oneSidedNode : Refusal model (.structural .oneSidedNode)
  | spanningFaceInLeaf : Refusal model (.structural .spanningFaceInLeaf)
  | capacity (cause : CapacityError) : Refusal model (.capacity cause)
  | unfinished : Refusal model .unfinished

/-- No fault of a hierarchy is about a face. -/
theorem HasFault.faceLabel_eq_none {fault : StructuralError} (faulty : model.HasFault fault) :
    fault.faceLabel? = none := by
  cases fault <;> first | rfl | exact faulty.elim

theorem refusal_of_build {index : Nat} {cause : Error}
    (failed : Partition.build limit select (model.submodel index).faces = .error cause) :
    model.Refusal cause := by
  unfold Partition.build at failed
  split_ifs at failed with empty
  simp only [bind_eq_error, liftM_structural, mapError_eq_error] at failed
  rcases failed with ⟨fault, invalid, rfl⟩ | ⟨_, _, treeFailed | ⟨_, _, ⟨⟩⟩⟩
  · obtain ⟨label, face, listed, faulty⟩ := validateFaces_eq_error invalid
    exact .face listed faulty
  · rcases Tree.build_eq_error treeFailed with
      rfl | ⟨count, rfl⟩ | ⟨_, _, _, _, _, _, rfl⟩
    · exact .unfinished
    · exact .degenerateSplit count
    · exact .oneSidedNode

/-- A partition that was built fails its check only where the selector has left a leaf too
early. -/
theorem refusal_of_validate {faces : List Face} {partition : Partition} {cause : StructuralError}
    (built : Partition.build limit select faces = .ok partition)
    (failed : partition.validate = .error cause) : model.Refusal (.structural cause) := by
  unfold Partition.validate at failed
  cases rooted : partition.root? with
  | none =>
      rw [rooted] at failed
      cases failed
  | some tree =>
      rw [rooted] at failed
      rcases Tree.validate_eq_error failed with rfl | ⟨plane, member, degenerate⟩
      · exact .spanningFaceInLeaf
      · rw [Partition.directed_of_build built rooted plane member] at degenerate
        cases degenerate

/-- The table of a partition has the positions of all vertices that the partition is drawn
with, those of cuts included. -/
theorem listed_of_mem (base : Nat) {faces : List Face} {face : Face} (member : face ∈ faces) :
    Emission.Listed (VertexTable.insertFaces { base := base } faces) face := by
  intro vertex inFace
  apply (VertexTable.insertFaces_numbers base faces).mem_iff.mp
  exact List.mem_flatMap.mpr ⟨face, member, List.mem_map_of_mem inFace⟩

theorem writePartition_onlyFails {faces : List Face} {partition : Partition}
    (built : Partition.build limit select faces = .ok partition) (base : Nat)
    (writeChild : Nat → Emission Unit) (owner : Nat) :
    Emission.OnlyFails model.Refusal (writeNested model writeChild owner partition
      (VertexTable.insertFaces { base := base } partition.faces) []) := by
  have proper := Partition.proper_of_build built
  unfold writeNested
  cases rooted : partition.root? with
  | none => exact .write _
  | some tree =>
      have inPartition : partition.faces = tree.faces := by
        unfold Partition.faces
        rw [rooted]
        rfl
      rw [inPartition] at proper ⊢
      apply Emission.writeTree_onlyFails .capacity (Partition.directed_of_build built rooted) proper
      exact fun face member => listed_of_mem base member

theorem writeNested_onlyFails {writeChild : Nat → Emission Unit} {faces : List Face}
    {partition : Partition} (built : Partition.build limit select faces = .ok partition)
    (base owner : Nat) (childFails : ∀ child, Emission.OnlyFails model.Refusal (writeChild child))
    (order : List Nat) :
    Emission.OnlyFails model.Refusal (writeNested model writeChild owner partition
      (VertexTable.insertFaces { base := base } partition.faces) order) := by
  induction order with
  | nil => exact writePartition_onlyFails built base writeChild owner
  | cons child rest ih =>
      rw [writeNested_cons]
      apply Emission.writeBranches_onlyFails .capacity _ _ ih
      unfold writeCalled Emission.writeCall
      apply Emission.OnlyFails.andThen
      · apply (Emission.narrow_onlyFails .capacity _ _).andThen
        intro index
        apply Emission.OnlyFails.position.andThen
        intro instruction
        exact (Emission.OnlyFails.write _).andThen fun _ => .pure instruction
      · intro call
        apply (Emission.OnlyFails.write _).andThen
        intro _
        apply Emission.OnlyFails.position.andThen
        intro target
        exact (Emission.patch_onlyFails .capacity _ _ _).andThen fun _ => childFails child

/-- Writing a submodel fails only for the reasons for which its model may be refused. -/
theorem writeSubmodel_onlyFails (levels index : Nat) :
    Emission.OnlyFails model.Refusal (writeSubmodel limit select model levels index) := by
  induction levels generalizing index with
  | zero => exact .throw .unfinished
  | succ levels ih =>
      have written : Emission.OnlyFails model.Refusal (do
          let partition ← liftM (Partition.build limit select (model.submodel index).faces)
          liftM (partition.validate.mapError Error.structural)
          let table := VertexTable.insertFaces { base := (← get).nextVertex } partition.faces
          modify fun emitter => { emitter with nextVertex := table.finish }
          Emission.writePoints table
          writeNested model (writeSubmodel limit select model levels) index partition table
            (model.nestingOrder index)) := by
        apply Emission.OnlyFails.check
        · intro cause failed
          exact refusal_of_build failed
        · intro partition built
          apply Emission.OnlyFails.check
          · intro cause failed
            obtain ⟨fault, invalid, rfl⟩ := mapError_eq_error.mp failed
            exact refusal_of_validate built invalid
          · intro _ _
            apply Emission.OnlyFails.andThen (.never fun emitter => ⟨emitter, emitter, rfl⟩)
            intro emitter
            apply (Emission.OnlyFails.modify _).andThen
            intro _
            apply (Emission.writePoints_onlyFails .capacity _).andThen
            intro _
            exact writeNested_onlyFails built emitter.nextVertex index ih _
      unfold writeSubmodel
      apply Emission.OnlyFails.position.andThen
      intro start
      split_ifs
      · apply Emission.OnlyFails.andThen (.throw (.capacity _))
        intro _
        exact (Emission.OnlyFails.modify _).andThen fun _ => written
      · exact (Emission.OnlyFails.modify _).andThen fun _ => written

theorem refusal_of_compileWith {scratchSize : Nat} {cause : Error}
    (failed : model.compileWith limit scratchSize select = .error cause) :
    model.Refusal cause := by
  unfold compileWith at failed
  simp only [bind_eq_error, liftM_structural, mapError_eq_error] at failed
  rcases failed with ⟨fault, invalid, rfl⟩ | ⟨_, _, failed⟩
  · exact .hierarchy (hasFault_of_validateHierarchy invalid)
  · cases ran : (writeSubmodel limit select model model.size 0).run
        { entries := Array.replicate model.size 0 } with
    | error found left =>
        rw [ran] at failed
        cases failed
        exact (writeSubmodel_onlyFails model.size 0).cause_allowed _ cause left ran
    | ok _ emitter =>
        simp only [ran, bind_eq_error, liftM_capacity, mapError_eq_error] at failed
        rcases failed with ⟨fault, _, rfl⟩ | ⟨_, _, ⟨⟩⟩
        exact .capacity fault

/-- An error that names a face is the fault of that face in the model that was given. -/
theorem Refusal.exists_face {fault : StructuralError} {label : Nat}
    (refusal : model.Refusal (.structural fault)) (names : fault.faceLabel? = some label) :
    ∃ index < model.size, ∃ face, (model.submodel index).faces[label]? = some face ∧
      face.validate label = .error fault := by
  cases refusal with
  | hierarchy faulty =>
      rw [faulty.faceLabel_eq_none] at names
      cases names
  | @face index found face _ listed faulty =>
      rw [Face.faceLabel_of_validate faulty] at names
      obtain rfl := Option.some.inj names
      refine ⟨index, ?_, face, listed, faulty⟩
      by_contra outside
      have absent : model.submodel index = {} := by
        simp [submodel, Array.getD_eq_getD_getElem?,
          Array.getElem?_eq_none (Nat.le_of_not_lt outside)]
      rw [absent] at listed
      cases listed
  | degenerateSplit count => cases names
  | oneSidedNode => cases names
  | spanningFaceInLeaf => cases names

/-- A model that is refused is never refused for a vertex without a number or a plane without a
direction, nor as if code were being read, and if a face is blamed it is a face of the model.
The reason is that partitions consist of proper polygons, and that their tables list every
vertex. -/
theorem compileWith_blames_input (limit scratchSize : Nat) (select : Selector) (model : Model) :
    (∀ cause, model.compileWith limit scratchSize select = .error cause →
      (∀ position, cause ≠ .structural (.unindexedVertex position)) ∧
      cause ≠ .structural .degenerateSplitter ∧
      cause ≠ .shortRead ∧ (∀ fault, cause ≠ .format fault) ∧
      ∀ fault label, cause = .structural fault → fault.faceLabel? = some label →
        ∃ index < model.size, ∃ face, (model.submodel index).faces[label]? = some face ∧
          face.validate label = .error fault) ∧
    ∀ faces partition, Partition.build limit select faces = .ok partition →
      ∀ face ∈ partition.faces, (∀ label, face.validate label = .ok ()) ∧
        ∀ base, ∀ vertex ∈ face.vertices, ∃ number,
          (VertexTable.insertFaces { base := base } partition.faces).index? vertex.position =
            some number := by
  constructor
  · intro cause failed
    have refusal := refusal_of_compileWith failed
    refine ⟨?_, ?_, ?_, ?_, ?_⟩
    · rintro position rfl
      cases refusal with
      | hierarchy faulty => cases faulty
      | face _ faulty => cases Face.faceLabel_of_validate faulty
    · rintro rfl
      cases refusal with
      | hierarchy faulty => cases faulty
      | face _ faulty => cases Face.faceLabel_of_validate faulty
    · rintro rfl
      cases refusal
    · rintro fault rfl
      cases refusal
    · rintro fault label rfl names
      exact refusal.exists_face names
  · intro faces partition built face member
    constructor
    · intro label
      exact Face.validate_eq_ok_iff.mpr (Partition.proper_of_build built face member)
    · intro base
      exact listed_of_mem base member

end Model

end PaintOrder
