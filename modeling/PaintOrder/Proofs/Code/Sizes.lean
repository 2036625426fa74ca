import PaintOrder.Proofs.Code.Room

/-!
# Sizes of trees

The size of the code of a tree follows from its faces alone.  A tree that can be written at
all is written wherever there is room for so many bytes: a polygon that fits has few enough
corners, and what it has to be besides is what its check asks for.
-/

namespace PaintOrder

open Code

/-- The size of the polygon of a face. -/
def Face.codeSize (face : Face) : Nat :=
  polygonSize face.size face.isTextured

/-- A leaf is a polygon for every face and a stop, a split is a sort with a stop and its
branches. -/
def Tree.codeSize : Tree → Nat
  | leaf faces => stopSize + (faces.map Face.codeSize).sum
  | split _ front back => sortSize + stopSize + front.codeSize + back.codeSize

/-- Without faces, only a stop is written. -/
def Partition.codeSize (partition : Partition) : Nat :=
  (partition.root?.map Tree.codeSize).getD stopSize

namespace Code

variable {table : VertexTable}

theorem Emission.Writable.length_bytes {face : Face} (writable : Emission.Writable table face) :
    (Emission.polygonOf table face).bytes.length = face.codeSize := by
  rw [writable.proper.length_bytes]
  exact congrArg (polygonSize · face.isTextured) (List.length_map _)

namespace Assembly

theorem length_ofTree {tree : Tree} (writable : ∀ face ∈ tree.faces, Emission.Writable table face) :
    (ofTree table tree).code.length = tree.codeSize := by
  induction tree with
  | leaf faces =>
      have lengths : faces.map (fun face => (Emission.polygonOf table face).bytes.length) =
          faces.map Face.codeSize :=
        List.map_congr_left fun face member => (writable face member).length_bytes
      rw [ofTree, ofFaces_code, Tree.codeSize, List.length_append, List.length_flatMap, lengths,
        length_stopBytes, Nat.add_comm]
  | split plane front back frontIH backIH =>
      simp only [ofTree, code, Tree.codeSize, List.length_append, length_sortBytes,
        length_stopBytes, frontIH fun face member => writable face (List.mem_append_left _ member),
        backIH fun face member => writable face (List.mem_append_right _ member)]
      omega

theorem length_ofPartition {partition : Partition}
    (writable : ∀ face ∈ partition.faces, Emission.Writable table face) :
    (ofPartition table partition).code.length = partition.codeSize := by
  rw [Partition.faces] at writable
  rw [ofPartition, Partition.codeSize]
  cases rooted : partition.root? with
  | none => rfl
  | some tree =>
      rw [rooted] at writable
      exact length_ofTree writable

end Assembly

namespace Emission

/-- A polygon has room for its corners, so there are few enough of them. -/
theorem size_le_codeSize (face : Face) : face.size ≤ face.codeSize := by
  rw [Face.codeSize, polygonSize, indexListLength]
  split_ifs <;> omega

theorem writeIndex_run {emitter : Emitter} {vertex : Vertex} (numbered : Numbered table vertex) :
    (writeIndex table vertex).run emitter =
      .ok () (emitter.append (signedWordBytes (cornerOf table vertex).index)) := by
  obtain ⟨index, known, fits⟩ := numbered
  have isWord : table.word? vertex.position = .ok (some (numberWord index)) :=
    VertexTable.word?_eq_some.mpr ⟨index, known, fits, rfl⟩
  rw [writeIndex, run_bind_eq_ok]
  refine ⟨_, emitter, lift_capacity_eq_ok.mpr ⟨isWord, rfl⟩, ?_⟩
  rw [cornerOf, known]
  rfl

theorem forM_run {α : Type} {step : α → Emission Unit} {bytes : α → List UInt8}
    {elements : List α} (each : ∀ element ∈ elements, ∀ emitter : Emitter,
      (step element).run emitter = .ok () (emitter.append (bytes element)))
    (emitter : Emitter) :
    (elements.forM step).run emitter = .ok () (emitter.append (elements.flatMap bytes)) := by
  induction elements generalizing emitter with
  | nil => exact congrArg _ (Emitter.append_nil emitter).symm
  | cons element rest ih =>
      have first := each element (by simp) emitter
      have later := ih (fun other member => each other (by simp [member]))
        (emitter.append (bytes element))
      rw [Emitter.append_append] at later
      exact run_bind_eq_ok.mpr ⟨(), _, first, later⟩

theorem exists_writePolygon {face : Face} (fits : face.size ≤ maxWord)
    (numbered : ∀ vertex ∈ face.vertices, Numbered table vertex) (emitter : Emitter) :
    ∃ result, (writePolygon table face).run emitter = .ok () result := by
  have wrote : ∀ bytes, (write bytes).run emitter = .ok () (emitter.append bytes) := fun _ => rfl
  rw [writePolygon, run_bind_of_ok (narrow_nat_eq_ok.mpr ⟨fits, rfl, rfl⟩),
    run_bind_of_ok (wrote _),
    run_bind_of_ok (forM_run (fun vertex member _ => writeIndex_run (numbered vertex member)) _)]
  split_ifs <;> exact ⟨_, rfl⟩

/-- A face that passes its check is written where there is room for its polygon. -/
theorem writeLeafFace_takes {face : Face} (proper : face.Proper)
    (numbered : ∀ vertex ∈ face.vertices, Numbered table vertex) (index : Nat) :
    Takes (writeLeafFace table face index) face.codeSize := by
  intro emitter covered room
  have enough := size_le_codeSize face
  obtain ⟨result, wrote⟩ := exists_writePolygon (by omega) numbered emitter
  have ran : (writeLeafFace table face index).run emitter = .ok () result :=
    run_bind_eq_ok.mpr ⟨(), emitter,
      lift_structural_eq_ok.mpr ⟨Face.validate_eq_ok_iff.mpr proper, rfl⟩, wrote⟩
  obtain ⟨writable, rfl⟩ := writeLeafFace_eq_ok ran
  refine ⟨_, ran, append_covered covered _, ?_⟩
  rw [Emitter.append_size, writable.length_bytes]

/-- A tree that passes its check is written where there is room for it. -/
theorem writeTree_takes {tree : Tree} (valid : tree.validate = .ok ())
    (proper : ∀ face ∈ tree.faces, face.Proper)
    (numbered : ∀ face ∈ tree.faces, ∀ vertex ∈ face.vertices, Numbered table vertex) :
    Takes (writeTree table tree) tree.codeSize := by
  induction tree with
  | leaf faces =>
      have unlabelled : faces.zipIdx.map (Face.codeSize ∘ Prod.fst) =
          faces.map Face.codeSize := by
        rw [← List.map_map, List.zipIdx_map_fst]
      have facesTake : Takes
          (faces.zipIdx.forM fun entry => writeLeafFace table entry.1 entry.2)
          (faces.map Face.codeSize).sum := by
        rw [← unlabelled]
        refine forM_takes fun entry member => ?_
        have inLeaf := List.fst_mem_of_mem_zipIdx member
        exact writeLeafFace_takes (proper _ inLeaf) (numbered _ inLeaf) entry.2
      rw [Tree.codeSize, Nat.add_comm]
      exact facesTake.andThen (write_takes stopBytes)
  | split plane front back frontIH backIH =>
      rw [Tree.validate] at valid
      split_ifs at valid with degenerate
      · cases valid
      · obtain ⟨_, frontValid, backValid⟩ := bind_eq_ok.mp valid
        have branches := writeBranches_takes plane
          (frontIH frontValid (fun face member => proper face (List.mem_append_left _ member))
            fun face member => numbered face (List.mem_append_left _ member))
          (backIH backValid (fun face member => proper face (List.mem_append_right _ member))
            fun face member => numbered face (List.mem_append_right _ member))
        rw [writeTree, if_neg degenerate]
        exact branches

end Emission

end Code

end PaintOrder
