import PaintOrder.Proofs.Partition.Division

/-!
# How trees are built

Building a tree is taken apart into its two cases: a list without a splitter becomes a leaf,
and any other list is divided and both sides are built in turn.  The cuts that divide a list
keep normals and surfaces, and never make the list longer on either side.
-/

namespace PaintOrder

namespace Face

def plainTriangle (first second third normal : FixedVector) (surface : Surface) : Face :=
  .withNormal [⟨first, none⟩, ⟨second, none⟩, ⟨third, none⟩] normal surface

/-- A cut leaves a face whole on one side, or splits a face that spans the plane. -/
theorem cut_eq_ok {face : Face} {plane : Plane} {piece : Pieces}
    (cut : face.cut plane = .ok piece) :
    (face.placement plane = .front ∧ piece = .front face) ∨
      (face.placement plane = .back ∧ piece = .back face) ∨
      (face.placement plane = .spanning ∧
        ∃ front back, face.split plane = .ok (front, back) ∧ piece = .both front back) := by
  rw [Face.cut] at cut
  cases placed : face.placement plane with
  | front =>
      rw [placed] at cut
      cases cut
      exact .inl ⟨rfl, rfl⟩
  | back =>
      rw [placed] at cut
      cases cut
      exact .inr (.inl ⟨rfl, rfl⟩)
  | spanning =>
      simp only [placed, bind_eq_ok, pure_eq_ok] at cut
      obtain ⟨⟨front, back⟩, split, rfl⟩ := cut
      exact .inr (.inr ⟨rfl, front, back, split, rfl⟩)

/-- The parts of a split face are faces with its normal and its surface. -/
theorem split_eq_ok {face front back : Face} {plane : Plane}
    (split : face.split plane = .ok (front, back)) :
    (front.normal = face.normal ∧ front.surface = face.surface) ∧
      back.normal = face.normal ∧ back.surface = face.surface := by
  simp only [Face.split] at split
  split_ifs at split
  cases split
  exact ⟨⟨rfl, rfl⟩, rfl, rfl⟩

end Face

namespace Division.Yields

/-- A piece of a face is the face in front, the face behind, or its two parts. -/
theorem cases {plane : Plane} {face : Face} {piece : Pieces}
    (yields : Yields plane face piece) :
    piece = .front face ∨ piece = .back face ∨
      (face.placement plane = .spanning ∧
        ∃ front back, face.split plane = .ok (front, back) ∧ piece = .both front back) := by
  rcases yields with cut | kept
  · rcases Face.cut_eq_ok cut with ⟨_, front⟩ | ⟨_, back⟩ | spanning
    · exact .inl front
    · exact .inr (.inl back)
    · exact .inr (.inr spanning)
  · exact .inl kept

end Division.Yields

namespace Tree

/-- A list is built into a leaf if it has no splitter, and otherwise into a split whose
sides are built of the two sides of its division. -/
theorem build_eq_ok {select : Selector} {limit : Nat} {faces : List Face} {tree : Tree}
    (built : build select limit faces = .ok tree) :
    (select faces = none ∧ tree = .leaf faces) ∨
      ∃ inner splitter division front back,
        limit = inner + 1 ∧ select faces = some splitter ∧
        Division.onSplitter faces splitter = .ok division ∧ division.back ≠ [] ∧
        build select inner division.front = .ok front ∧
        build select inner division.back = .ok back ∧
        tree = .split (faces.get splitter).plane front back := by
  cases limit with
  | zero => simp [build] at built
  | succ inner =>
      rw [build] at built
      cases selected : select faces with
      | none =>
          rw [selected] at built
          cases built
          exact .inl ⟨rfl, rfl⟩
      | some splitter =>
          simp only [selected, bind_eq_ok, liftM_structural, mapError_eq_ok] at built
          obtain ⟨division, divided, built⟩ := built
          split_ifs at built with oneSided
          · simp [bind_eq_ok, throw_ne_ok] at built
          · simp only [bind_eq_ok, pure_eq_ok] at built
            obtain ⟨front, frontBuilt, back, backBuilt, rfl⟩ := built
            exact .inr ⟨inner, splitter, division, front, back, rfl, rfl, divided,
              by simpa using oneSided, frontBuilt, backBuilt, rfl⟩

theorem faceCount_eq_length_faces (tree : Tree) : tree.faceCount = tree.faces.length := by
  induction tree with
  | leaf faces => rfl
  | split plane front back frontIH backIH =>
      simp [faceCount, faces, frontIH, backIH]

end Tree

/-- A partition is empty without faces, and otherwise the tree of a list of proper
polygons. -/
theorem Partition.build_eq_ok {limit : Nat} {select : Selector} {faces : List Face}
    {partition : Partition} (built : Partition.build limit select faces = .ok partition) :
    (faces = [] ∧ partition.root? = none) ∨
      (faces ≠ [] ∧ validateFaces faces = .ok () ∧
        ∃ tree, Tree.build select limit faces = .ok tree ∧ partition.root? = some tree) := by
  rw [Partition.build] at built
  split_ifs at built with empty
  · cases built
    exact .inl ⟨by simpa using empty, rfl⟩
  · simp only [bind_eq_ok, liftM_structural, mapError_eq_ok, pure_eq_ok] at built
    obtain ⟨⟨⟩, valid, tree, treeBuilt, rfl⟩ := built
    exact .inr ⟨by simpa using empty, valid, tree, treeBuilt, rfl⟩

end PaintOrder
