import PaintOrder.Proofs.Code.Emission

/-!
# Code of trees and points

The code of a leaf is a polygon for every face, and that of a split is a sort over the code
of its two sides.  What can be written at all is known to fit: every face is a proper
polygon, every vertex has a number, and every jump and count fits into a word.
-/

namespace PaintOrder.Code

namespace Assembly

def ofFaces (table : VertexTable) : List Face → Assembly
  | [] => .stop
  | face :: rest => .draw (Emission.polygonOf table face) (ofFaces table rest)

def ofTree (table : VertexTable) : Tree → Assembly
  | .leaf faces => ofFaces table faces
  | .split plane front back => .sort plane (ofTree table front) (ofTree table back)

/-- The faces of one submodel. -/
def ofPartition (table : VertexTable) (partition : Partition) : Assembly :=
  match partition.root? with
  | some tree => ofTree table tree
  | none => .stop

theorem ofFaces_code (table : VertexTable) (faces : List Face) :
    (ofFaces table faces).code =
      faces.flatMap (fun face => (Emission.polygonOf table face).bytes) ++ stopBytes := by
  induction faces with
  | nil => rfl
  | cons face rest ih => simp [ofFaces, code, ih]

theorem ofFaces_fits {table : VertexTable} {faces : List Face}
    (writable : ∀ face ∈ faces, Emission.Writable table face) :
    (ofFaces table faces).Fits := by
  induction faces with
  | nil => trivial
  | cons face rest ih =>
      refine ⟨(writable face (by simp)).proper, ih ?_⟩
      intro other member
      exact writable other (by simp [member])

end Assembly

namespace Emission

variable {emitter result : Emitter} {table : VertexTable}

theorem writePoints_eq_ok (ran : (writePoints table).run emitter = .ok () result) :
    table.base ≤ maxWord ∧ table.positions.toList.length ≤ maxWord ∧
      result = emitter.append (pointsBytes table.base table.positions.toList) := by
  simp only [writePoints, run_bind_eq_ok, narrow_nat_eq_ok, write_eq_ok] at ran
  obtain ⟨_, _, ⟨countFits, rfl, rfl⟩, _, _, ⟨baseFits, rfl, rfl⟩, _, _, rfl, rfl⟩ := ran
  refine ⟨baseFits, by simpa [VertexTable.size] using countFits, ?_⟩
  rw [Emitter.append_append, pointsBytes, Array.length_toList]
  rfl

theorem writeLeaf_eq_ok {faces : List Face}
    (ran : (writeTree table (.leaf faces)).run emitter = .ok () result) :
    (∀ face ∈ faces, Writable table face) ∧
      result = emitter.append (Assembly.ofFaces table faces).code := by
  rw [writeTree, run_bind_eq_ok] at ran
  obtain ⟨_, between, wrote, ran⟩ := ran
  have each : ∀ (entry : Face × Nat) (emitter result : Emitter),
      (writeLeafFace table entry.1 entry.2).run emitter = .ok () result →
        Writable table entry.1 ∧
          result = emitter.append (polygonOf table entry.1).bytes := by
    intro entry emitter result ran
    exact writeLeafFace_eq_ok ran
  obtain ⟨writable, rfl⟩ := forM_appends each wrote
  obtain rfl := write_eq_ok.mp ran
  constructor
  · intro face member
    obtain ⟨index, inRange, rfl⟩ := List.mem_iff_getElem.mp member
    exact writable (faces[index], index) (by simp [List.mk_mem_zipIdx_iff_getElem?])
  · rw [Emitter.append_append, Assembly.ofFaces_code]
    have unlabelled : faces.zipIdx.flatMap (fun entry => (polygonOf table entry.1).bytes) =
        (faces.zipIdx.map Prod.fst).flatMap fun face => (polygonOf table face).bytes := by
      rw [List.flatMap_map]
    rw [unlabelled, List.zipIdx_map_fst]
    rfl

/-- A tree is written as its code. -/
theorem writeTree_eq_ok {tree : Tree}
    (ran : (writeTree table tree).run emitter = .ok () result) :
    (Assembly.ofTree table tree).Fits ∧ (∀ face ∈ tree.faces, Writable table face) ∧
      result = emitter.append (Assembly.ofTree table tree).code := by
  induction tree generalizing emitter result with
  | leaf faces =>
      obtain ⟨writable, rfl⟩ := writeLeaf_eq_ok ran
      exact ⟨Assembly.ofFaces_fits writable, writable, rfl⟩
  | split plane front back frontIH backIH =>
      rw [writeTree] at ran
      split_ifs at ran with degenerate
      · obtain ⟨_, _, thrown, _⟩ := run_bind_eq_ok.mp ran
        exact absurd thrown run_throw_ne_ok
      · have branches : (writeBranches plane (writeTree table front)
            (writeTree table back)).run emitter = .ok () result := ran
        obtain ⟨_, _, last, frontRan, backRan, backPatched, frontPatched⟩ :=
          writeBranches_eq_ok branches
        obtain ⟨frontFits, frontWritable, rfl⟩ := frontIH frontRan
        obtain ⟨backFits, backWritable, rfl⟩ := backIH backRan
        have backPlace : ((emitter.append (sortBytes plane 0 0 ++ stopBytes)).append
            (Assembly.ofTree table front).code).code.size = emitter.code.size +
              (Assembly.frontJump + (Assembly.ofTree table front).code.length) := by
          simp [Assembly.frontJump, Nat.add_assoc]
        simp only [Emitter.append_append, List.append_assoc] at backPlace backPatched
        obtain ⟨jumpFits, rfl⟩ :=
          patch_sort_eq_ok backPatched frontPatched rfl backPlace
        refine ⟨⟨jumpFits, frontFits, backFits⟩, ?_, rfl⟩
        intro face member
        rcases List.mem_append.mp member with inFront | behind
        · exact frontWritable face inFront
        · exact backWritable face behind

end Emission

end PaintOrder.Code
