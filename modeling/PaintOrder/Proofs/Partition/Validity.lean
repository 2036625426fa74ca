import PaintOrder.Proofs.Geometry.Polygon
import PaintOrder.Proofs.Partition.Completeness

/-!
# Fragments are proper polygons

Cutting makes proper polygons of proper polygons, so every face of a partition passes the
check that the faces of which it was built have passed, and every plane of it has a
direction.
-/

namespace PaintOrder

theorem Face.Fragments.proper {planes : List Plane} {face : Face} {cuts : Nat}
    {fragments : List Face} (derived : face.Fragments planes cuts fragments)
    (proper : face.Proper) : ∀ fragment ∈ fragments, fragment.Proper := by
  induction derived with
  | whole => simpa using proper
  | @cut count before after member front back plane _ _ _ split ih =>
      obtain ⟨frontProper, backProper⟩ := (ih member (by simp)).split split
      intro fragment belongs
      simp only [List.mem_append, List.mem_cons] at belongs
      rcases belongs with earlier | rfl | rfl | later
      · exact ih fragment (by simp [earlier])
      · exact frontProper
      · exact backProper
      · exact ih fragment (by simp [later])

theorem validateFaces_eq_ok {faces : List Face} (valid : validateFaces faces = .ok ()) :
    ∀ face ∈ faces, face.Proper := by
  intro face member
  obtain ⟨index, inRange, rfl⟩ := List.mem_iff_getElem.mp member
  have checked := forM_eq_ok.mp valid (faces[index], index)
    (by simp [List.mk_mem_zipIdx_iff_getElem?])
  exact Face.validate_eq_ok_iff.mp checked

/-- Every face of a partition is a proper polygon. -/
theorem Partition.proper_of_build {limit : Nat} {select : Selector} {faces : List Face}
    {partition : Partition} (built : Partition.build limit select faces = .ok partition) :
    ∀ face ∈ partition.faces, face.Proper := by
  have proper : ∀ face ∈ faces, face.Proper := by
    rcases Partition.build_eq_ok built with ⟨rfl, _⟩ | ⟨_, valid, _⟩
    · simp
    · exact validateFaces_eq_ok valid
  obtain ⟨planes, accounts, sources, perm⟩ := exists_accounts_of_build built
  intro fragment member
  obtain ⟨account, isAccount, isFragment⟩ := List.mem_flatMap.mp (perm.mem_iff.mp member)
  apply account.derived.proper _ fragment isFragment
  apply proper
  rw [← sources]
  exact List.mem_map_of_mem isAccount

/-- The pieces of a proper polygon are proper polygons. -/
theorem Division.Yields.proper {plane : Plane} {face : Face} {piece : Pieces}
    (yields : Yields plane face piece) (proper : face.Proper) :
    (∀ part ∈ piece.front?, part.Proper) ∧ ∀ part ∈ piece.back?, part.Proper := by
  rcases yields.cases with rfl | rfl | ⟨_, front, back, split, rfl⟩
  · simpa [Pieces.front?, Pieces.back?] using proper
  · simpa [Pieces.front?, Pieces.back?] using proper
  · simpa [Pieces.front?, Pieces.back?] using proper.split split

/-- Both sides of a division of proper polygons are proper polygons. -/
theorem Division.proper_of_onSplitter {faces : List Face} {splitter : Fin faces.length}
    {division : Division} (divided : onSplitter faces splitter = .ok division)
    (proper : ∀ face ∈ faces, face.Proper) :
    (∀ face ∈ division.front, face.Proper) ∧ ∀ face ∈ division.back, face.Proper := by
  obtain ⟨pieces, yields, _, rfl⟩ := exists_pieces_of_onSplitter divided
  have each : ∀ piece ∈ pieces, (∀ face ∈ piece.front?, face.Proper) ∧
      ∀ face ∈ piece.back?, face.Proper := by
    intro piece member
    obtain ⟨index, inRange, rfl⟩ := List.mem_iff_getElem.mp member
    have inFaces : index < faces.length := yields.length_eq ▸ inRange
    exact (yields.get inFaces inRange).proper (proper _ (List.getElem_mem inFaces))
  constructor
  · intro face inFront
    obtain ⟨piece, member, isFace⟩ := List.mem_filterMap.mp inFront
    exact (each piece member).1 face isFace
  · intro face behind
    obtain ⟨piece, member, isFace⟩ := List.mem_filterMap.mp behind
    exact (each piece member).2 face isFace

/-- A tree of proper polygons only splits along planes that have a direction. -/
theorem Tree.directed_of_build {limit : Nat} {select : Selector} {faces : List Face}
    {tree : Tree} (built : build select limit faces = .ok tree)
    (proper : ∀ face ∈ faces, face.Proper) :
    ∀ plane ∈ tree.planes, plane.isDegenerate = false := by
  induction limit generalizing faces tree with
  | zero => simp [build] at built
  | succ limit ih =>
      rcases build_eq_ok built with ⟨_, rfl⟩ |
        ⟨inner, splitter, division, front, back, sameLimit, _, divided, _, frontBuilt, backBuilt,
          rfl⟩
      · simp [planes]
      · obtain rfl : limit = inner := by omega
        obtain ⟨inFront, behind⟩ := Division.proper_of_onSplitter divided proper
        intro plane member
        simp only [planes, List.mem_cons, List.mem_append] at member
        rcases member with rfl | frontPlane | backPlane
        · exact (proper _ (List.get_mem faces splitter)).directed
        · exact ih frontBuilt inFront plane frontPlane
        · exact ih backBuilt behind plane backPlane

/-- The planes of a partition have a direction. -/
theorem Partition.directed_of_build {limit : Nat} {select : Selector} {faces : List Face}
    {partition : Partition} {tree : Tree}
    (built : Partition.build limit select faces = .ok partition)
    (rooted : partition.root? = some tree) :
    ∀ plane ∈ tree.planes, plane.isDegenerate = false := by
  rcases Partition.build_eq_ok built with ⟨_, unrooted⟩ | ⟨_, valid, same, treeBuilt, sameRoot⟩
  · rw [unrooted] at rooted
    cases rooted
  · obtain rfl : same = tree := by
      rw [sameRoot] at rooted
      exact Option.some.inj rooted
    exact Tree.directed_of_build treeBuilt (validateFaces_eq_ok valid)

end PaintOrder
