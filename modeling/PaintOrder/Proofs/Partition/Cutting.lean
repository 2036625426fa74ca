import PaintOrder.Proofs.Partition.Completeness

/-!
# Lists of faces that are cut

Building a partition turns a list of faces into their fragments, in some order.  Such lists
have at least as many faces, painted in the same way, and fragments of fragments are fragments
again.  Nothing is cut exactly if there are as many faces as before.  That is the case whenever
no face spans the plane of another one: every plane on which the construction splits is then the
plane of a face of the list, and both sides are lists of the same kind.
-/

namespace PaintOrder

namespace Fragmentation

variable {planes other : List Plane}

/-- A face that was not cut is its only fragment. -/
theorem fragments_of_uncut (account : Fragmentation planes) (uncut : account.cuts = 0) :
    account.fragments = [account.source] := by
  obtain ⟨source, cuts, fragments, derived⟩ := account
  obtain rfl : cuts = 0 := uncut
  cases derived with
  | whole => rfl

/-- Without cuts, the fragments of faces are the faces. -/
theorem flatMap_of_uncut {accounts : List (Fragmentation planes)}
    (uncut : (accounts.map cuts).sum = 0) : accounts.flatMap fragments = accounts.map source := by
  induction accounts with
  | nil => rfl
  | cons account rest ih =>
      rw [List.map_cons, List.sum_cons, Nat.add_eq_zero_iff] at uncut
      rw [List.flatMap_cons, List.map_cons, account.fragments_of_uncut uncut.1, ih uncut.2]
      rfl

/-- The members at the end of a list of fragments can all be replaced by their fragments. -/
theorem splice_all {face : Face} {cuts : Nat} (before : List Face)
    {parts : List (Fragmentation planes)}
    (derived : face.Fragments planes cuts (before ++ parts.map source)) :
    ∃ cuts, face.Fragments planes cuts (before ++ parts.flatMap fragments) := by
  induction parts generalizing cuts before with
  | nil => exact ⟨cuts, derived⟩
  | cons part rest ih =>
      rw [List.flatMap_cons, ← List.append_assoc]
      exact ih _ (derived.splice part.derived)

/-- The fragments of the fragments of a face are fragments of the face. -/
theorem exists_refined (account : Fragmentation planes) {parts : List (Fragmentation other)}
    (sources : parts.map source = account.fragments) :
    ∃ refined : Fragmentation (planes ++ other),
      refined.source = account.source ∧ refined.fragments = parts.flatMap fragments := by
  have derived := account.derived.mono (List.subset_append_left planes other)
  let widened := parts.map (widen (List.subset_append_right planes other))
  have sameSources : widened.map source = account.fragments := by
    rw [← sources]
    exact List.map_map
  have sameFragments : widened.flatMap fragments = parts.flatMap fragments :=
    List.flatMap_map ..
  rw [← sameSources] at derived
  obtain ⟨cuts, further⟩ := splice_all [] derived
  rw [sameFragments] at further
  exact ⟨⟨account.source, cuts, _, further⟩, rfl, rfl⟩

theorem exists_refined_all {accounts : List (Fragmentation planes)}
    {parts : List (Fragmentation other)}
    (sources : parts.map source = accounts.flatMap fragments) :
    ∃ refined : List (Fragmentation (planes ++ other)),
      refined.map source = accounts.map source ∧
        refined.flatMap fragments = parts.flatMap fragments := by
  induction accounts generalizing parts with
  | nil =>
      obtain rfl : parts = [] := List.map_eq_nil_iff.mp sources
      exact ⟨[], rfl, rfl⟩
  | cons account rest ih =>
      obtain ⟨here, later, rfl, hereSources, laterSources⟩ := List.map_eq_append_iff.mp sources
      obtain ⟨first, firstSource, firstFragments⟩ := account.exists_refined hereSources
      obtain ⟨others, otherSources, otherFragments⟩ := ih laterSources
      exact ⟨first :: others, by simp [firstSource, otherSources],
        by simp [firstFragments, otherFragments]⟩

end Fragmentation

open Fragmentation

/-- The second of two lists holds the fragments of the faces of the first, in any order. -/
def CutInto (faces result : List Face) : Prop :=
  ∃ (planes : List Plane) (accounts : List (Fragmentation planes)),
    accounts.map source = faces ∧ result.Perm (accounts.flatMap fragments)

namespace CutInto

variable {faces result further : List Face}

theorem trans (first : CutInto faces result) (second : CutInto result further) :
    CutInto faces further := by
  obtain ⟨planes, accounts, rfl, perm⟩ := first
  obtain ⟨other, parts, rfl, furtherPerm⟩ := second
  -- The second accounts come in the order in which the first ones list the fragments.
  have related : List.Forall₂ (fun face part => face = source part) (parts.map source) parts := by
    simp [List.forall₂_same]
  obtain ⟨ordered, inOrder, reordered⟩ := List.perm_comp_forall₂ perm.symm related
  have sources : ordered.map source = accounts.flatMap fragments := by
    rw [← List.forall₂_eq_eq_eq, List.forall₂_map_left_iff]
    exact inOrder.flip.imp fun _ _ => Eq.symm
  obtain ⟨refined, refinedSources, refinedFragments⟩ := exists_refined_all sources
  refine ⟨_, refined, refinedSources, ?_⟩
  rw [refinedFragments]
  exact furtherPerm.trans (reordered.symm.flatMap_right fragments)

/-- Cutting only adds faces. -/
theorem length_le (cut : CutInto faces result) : faces.length ≤ result.length := by
  obtain ⟨planes, accounts, rfl, perm⟩ := cut
  rw [perm.length_eq, length_flatMap, List.length_map]
  exact Nat.le_add_right _ _

/-- Nothing was cut if there are as many faces as before. -/
theorem perm_iff (cut : CutInto faces result) :
    result.Perm faces ↔ result.length = faces.length := by
  refine ⟨List.Perm.length_eq, ?_⟩
  intro sameLength
  obtain ⟨planes, accounts, rfl, perm⟩ := cut
  have uncut : (accounts.map cuts).sum = 0 := by
    rw [perm.length_eq, length_flatMap, List.length_map] at sameLength
    omega
  rwa [flatMap_of_uncut uncut] at perm

/-- Cutting keeps how faces are painted and where they face, and loses none of them. -/
theorem paint_iff (cut : CutInto faces result) (surface : Surface) (normal : FixedVector) :
    (∃ face ∈ result, face.surface = surface ∧ face.normal = normal) ↔
      ∃ face ∈ faces, face.surface = surface ∧ face.normal = normal := by
  obtain ⟨planes, accounts, rfl, perm⟩ := cut
  constructor
  · rintro ⟨fragment, member, rfl, rfl⟩
    obtain ⟨account, isAccount, isFragment⟩ := List.mem_flatMap.mp (perm.mem_iff.mp member)
    obtain ⟨sameNormal, sameSurface⟩ := account.derived.keeps_paint fragment isFragment
    exact ⟨account.source, List.mem_map_of_mem isAccount, sameSurface.symm, sameNormal.symm⟩
  · rintro ⟨face, member, rfl, rfl⟩
    obtain ⟨account, isAccount, rfl⟩ := List.mem_map.mp member
    have nonempty : account.fragments ≠ [] := by
      apply List.ne_nil_of_length_pos
      rw [account.derived.length_eq]
      exact Nat.succ_pos _
    obtain ⟨fragment, isFragment⟩ := List.exists_mem_of_ne_nil _ nonempty
    obtain ⟨sameNormal, sameSurface⟩ := account.derived.keeps_paint fragment isFragment
    exact ⟨fragment, perm.mem_iff.mpr (List.mem_flatMap.mpr ⟨account, isAccount, isFragment⟩),
      sameSurface, sameNormal⟩

end CutInto

/-- Neither of two faces spans the plane of the other. -/
def Face.Apart (first second : Face) : Prop :=
  first.placement second.plane ≠ .spanning ∧ second.placement first.plane ≠ .spanning

/-- A list passes the check for spanning faces if its faces are apart. -/
theorem Tree.pairwise_apart {faces : List Face} (clear : hasSpanningFace faces = false) :
    faces.Pairwise Face.Apart := by
  have different : ∀ (splitter : Fin faces.length) (index : Nat)
      (inRange : index < faces.length), index ≠ splitter →
      faces[index].placement (faces.get splitter).plane ≠ .spanning := by
    intro splitter index inRange other
    have remains : faces[index] ∈ faces.eraseIdx splitter :=
      List.mem_eraseIdx_iff_getElem.mpr ⟨index, inRange, other, rfl⟩
    intro spans
    have found : hasSpanningFace faces = true :=
      List.any_eq_true.mpr ⟨splitter, List.mem_finRange splitter,
        List.any_eq_true.mpr ⟨_, remains, decide_eq_true spans⟩⟩
    rw [clear] at found
    cases found
  rw [List.pairwise_iff_getElem]
  intro first second firstInRange secondInRange before
  exact ⟨different ⟨second, secondInRange⟩ first firstInRange (Nat.ne_of_lt before),
    different ⟨first, firstInRange⟩ second secondInRange (Nat.ne_of_gt before)⟩

namespace Division

/-- A piece is a whole face, on one of the sides. -/
def IsWhole (face : Face) (piece : Pieces) : Prop :=
  piece = .front face ∨ piece = .back face

/-- A division keeps all faces whole. -/
structure Uncut (faces : List Face) (division : Division) : Prop where
  front : division.front.Sublist faces
  back : division.back.Sublist faces
  perm : (division.front ++ division.back).Perm faces

theorem ofPieces_uncut {faces : List Face} {pieces : List Pieces}
    (whole : List.Forall₂ IsWhole faces pieces) : Uncut faces (ofPieces pieces) := by
  induction whole with
  | nil => exact ⟨.slnil, .slnil, .nil⟩
  | @cons face piece faces pieces isWhole _ ih =>
      rw [ofPieces_cons]
      rcases isWhole with rfl | rfl
      · exact ⟨ih.front.cons_cons face, ih.back.cons face, ih.perm.cons face⟩
      · exact ⟨ih.front.cons face, ih.back.cons_cons face,
          List.perm_middle.trans (ih.perm.cons face)⟩

/-- Cuts along a plane that no face spans leave the faces whole. -/
theorem isWhole_of_cut {plane : Plane} {faces : List Face} {pieces : List Pieces}
    (clear : ∀ face ∈ faces, face.placement plane ≠ .spanning)
    (cut : List.Forall₂ (fun face piece => face.cut plane = .ok piece) faces pieces) :
    List.Forall₂ IsWhole faces pieces := by
  refine ((List.forall₂_and_left _ _).mpr ⟨clear, cut⟩).imp ?_
  rintro face piece ⟨notSpanning, isPiece⟩
  rcases Face.cut_eq_ok isPiece with ⟨_, front⟩ | ⟨_, back⟩ | ⟨spans, _⟩
  · exact .inl front
  · exact .inr back
  · exact absurd spans notSpanning

/-- Faces that are apart are divided without a cut. -/
theorem uncut_of_apart {faces : List Face} {splitter : Fin faces.length} {division : Division}
    (apart : faces.Pairwise Face.Apart) (divided : onSplitter faces splitter = .ok division) :
    Uncut faces division := by
  obtain ⟨before, after, beforeCut, afterCut, rfl⟩ := onSplitter_eq_ok divided
  have split : faces.take splitter ++ faces.get splitter :: faces.drop (splitter + 1) =
      faces := by
    simp
  rw [← split, List.pairwise_append, List.pairwise_cons] at apart
  obtain ⟨_, ⟨apartAfter, _⟩, apartBefore⟩ := apart
  have wholeBefore := isWhole_of_cut
    (fun face member => (apartBefore face member _ List.mem_cons_self).1) beforeCut
  have wholeAfter := isWhole_of_cut (fun face member => (apartAfter face member).2) afterCut
  have whole : List.Forall₂ IsWhole
      (faces.take splitter ++ faces.get splitter :: faces.drop (splitter + 1))
      (before ++ .front (faces.get splitter) :: after) :=
    List.rel_append wholeBefore (.cons (.inl rfl) wholeAfter)
  rw [split] at whole
  exact ofPieces_uncut whole

end Division

/-- A tree of faces that are apart is a permutation of them. -/
theorem Tree.perm_of_apart {limit : Nat} {select : Selector} {faces : List Face} {tree : Tree}
    (apart : faces.Pairwise Face.Apart) (built : build select limit faces = .ok tree) :
    tree.faces.Perm faces := by
  induction limit generalizing faces tree with
  | zero => simp [build] at built
  | succ limit ih =>
      rcases build_eq_ok built with ⟨_, rfl⟩ |
        ⟨inner, splitter, division, front, back, sameLimit, _, divided, _, frontBuilt, backBuilt,
          rfl⟩
      · exact .refl faces
      · obtain rfl : limit = inner := by omega
        have uncut := Division.uncut_of_apart apart divided
        have frontPerm := ih (apart.sublist uncut.front) frontBuilt
        have backPerm := ih (apart.sublist uncut.back) backBuilt
        exact (frontPerm.append backPerm).trans uncut.perm

namespace Partition

variable {limit : Nat} {select : Selector} {faces : List Face} {partition : Partition}

/-- The faces of a partition are the fragments of those of which it is built. -/
theorem cutInto_of_build (built : build limit select faces = .ok partition) :
    CutInto faces partition.faces :=
  exists_accounts_of_build built

/-- A partition is a permutation of faces none of which spans the plane of another one. -/
theorem perm_of_build (built : build limit select faces = .ok partition)
    (clear : Tree.hasSpanningFace faces = false) : partition.faces.Perm faces := by
  rw [Partition.faces]
  rcases build_eq_ok built with ⟨rfl, unrooted⟩ | ⟨_, _, tree, treeBuilt, rooted⟩
  · rw [unrooted]
    exact .nil
  · rw [rooted]
    exact Tree.perm_of_apart (Tree.pairwise_apart clear) treeBuilt

end Partition

end PaintOrder
