import Mathlib.Algebra.BigOperators.Group.List.Basic
import Mathlib.Algebra.GroupWithZero.Nat
import PaintOrder.Proofs.Partition.Construction

/-!
# The leaves of a tree hold the fragments of its faces

A face that enters the construction of a tree reaches the leaves whole or in fragments.
Its fragments arise from it by cutting, one after the other, members that span the plane of
a split.  The main theorem accounts for every face: the leaves hold the fragments of all
faces of the list and nothing else, and the same is true at every node for the list of which
the node is built, with the splitter of the node in front.
-/

namespace PaintOrder

def Tree.planes : Tree → List Plane
  | leaf _ => []
  | split plane front back => plane :: (front.planes ++ back.planes)

/-- The lists of faces in the leaves of a tree, in the order of a walk. -/
def Tree.leaves : Tree → List (List Face)
  | leaf faces => [faces]
  | split _ front back => front.leaves ++ back.leaves

/-- The lists that arise from a face when, a given number of times, a member that spans one
of some planes is replaced by the two parts into which that plane splits it. -/
inductive Face.Fragments (planes : List Plane) (face : Face) : Nat → List Face → Prop
  | whole : Fragments planes face 0 [face]
  | cut {cuts : Nat} {before after : List Face} {member front back : Face} {plane : Plane}
      (fragments : Fragments planes face cuts (before ++ member :: after))
      (known : plane ∈ planes) (spans : member.placement plane = .spanning)
      (split : member.split plane = .ok (front, back)) :
      Fragments planes face (cuts + 1) (before ++ front :: back :: after)

namespace Face.Fragments

variable {planes larger : List Plane} {face : Face} {cuts : Nat} {fragments : List Face}

theorem mono (subset : planes ⊆ larger) (derived : Fragments planes face cuts fragments) :
    Fragments larger face cuts fragments := by
  induction derived with
  | whole => exact .whole
  | cut _ known spans split ih => exact .cut ih (subset known) spans split

/-- A member of a list of fragments can be replaced by its own fragments. -/
theorem splice {before after : List Face} {member : Face} {more : Nat}
    (outer : Fragments planes face cuts (before ++ member :: after))
    (inner : Fragments planes member more fragments) :
    Fragments planes face (cuts + more) (before ++ fragments ++ after) := by
  induction inner with
  | whole => simpa using outer
  | @cut count left right divided front back plane _ known spans split ih =>
      have derived : Fragments planes face (cuts + count)
          ((before ++ left) ++ divided :: (right ++ after)) := by
        simpa using ih
      simpa [Nat.add_assoc] using derived.cut known spans split

/-- The fragments of the two parts of a spanning face together are fragments of the face. -/
theorem both {plane : Plane} {front back : Face} {frontCuts backCuts : Nat}
    {frontFragments backFragments : List Face} (known : plane ∈ planes)
    (spans : face.placement plane = .spanning) (split : face.split plane = .ok (front, back))
    (frontDerived : Fragments planes front frontCuts frontFragments)
    (backDerived : Fragments planes back backCuts backFragments) :
    Fragments planes face (1 + frontCuts + backCuts) (frontFragments ++ backFragments) := by
  have alone : Fragments planes face 0 ([] ++ face :: []) := .whole
  have divided : Fragments planes face 1 ([] ++ front :: [back]) :=
    alone.cut known spans split
  have frontReplaced : Fragments planes face (1 + frontCuts) (frontFragments ++ back :: []) := by
    simpa using divided.splice frontDerived
  simpa using frontReplaced.splice backDerived

theorem length_eq (derived : Fragments planes face cuts fragments) :
    fragments.length = cuts + 1 := by
  induction derived with
  | whole => rfl
  | cut _ _ _ _ ih => simp at ih ⊢; omega

/-- Fragments keep the normal and the surface of the face. -/
theorem keeps_paint (derived : Fragments planes face cuts fragments) :
    ∀ fragment ∈ fragments,
      fragment.normal = face.normal ∧ fragment.surface = face.surface := by
  induction derived with
  | whole => simp
  | @cut count before after member front back plane _ _ _ split ih =>
      have memberPaint := ih member (by simp)
      obtain ⟨frontPaint, backPaint⟩ := split_eq_ok split
      intro fragment belongs
      simp only [List.mem_append, List.mem_cons] at belongs
      rcases belongs with earlier | rfl | rfl | later
      · exact ih fragment (by simp [earlier])
      · exact ⟨frontPaint.1.trans memberPaint.1, frontPaint.2.trans memberPaint.2⟩
      · exact ⟨backPaint.1.trans memberPaint.1, backPaint.2.trans memberPaint.2⟩
      · exact ih fragment (by simp [later])

end Face.Fragments

/-- A face with the fragments that some cuts along given planes make of it. -/
structure Fragmentation (planes : List Plane) where
  source : Face
  cuts : Nat
  fragments : List Face
  derived : source.Fragments planes cuts fragments

namespace Fragmentation

def whole (planes : List Plane) (face : Face) : Fragmentation planes :=
  ⟨face, 0, [face], .whole⟩

theorem map_source_whole (planes : List Plane) (faces : List Face) :
    (faces.map (whole planes)).map source = faces := by
  induction faces with
  | nil => rfl
  | cons face rest ih => exact congrArg (face :: ·) ih

theorem flatMap_whole (planes : List Plane) (faces : List Face) :
    (faces.map (whole planes)).flatMap fragments = faces := by
  induction faces with
  | nil => rfl
  | cons face rest ih => exact congrArg (face :: ·) ih

def widen {planes larger : List Plane} (subset : planes ⊆ larger)
    (pieces : Fragmentation planes) : Fragmentation larger :=
  ⟨pieces.source, pieces.cuts, pieces.fragments, pieces.derived.mono subset⟩

/-- The number of fragments of a list of faces is that of the faces plus that of the cuts. -/
theorem length_flatMap {planes : List Plane} (accounts : List (Fragmentation planes)) :
    (accounts.flatMap fragments).length = accounts.length + (accounts.map cuts).sum := by
  induction accounts with
  | nil => rfl
  | cons account rest ih =>
      simp [ih, account.derived.length_eq]
      omega

section Combine

variable {plane : Plane} {planes frontPlanes backPlanes : List Plane}

/-- Accounts of the pieces of a face combine into an account of the face.  If the face is
kept in front, that is the account of its only piece. -/
theorem exists_account (known : plane ∈ planes) (frontSubset : frontPlanes ⊆ planes)
    (backSubset : backPlanes ⊆ planes) {face : Face} {piece : Pieces}
    (yields : Division.Yields plane face piece)
    {front : List (Fragmentation frontPlanes)} {back : List (Fragmentation backPlanes)}
    (frontSource : front.map source = piece.front?.toList)
    (backSource : back.map source = piece.back?.toList) :
    ∃ account : Fragmentation planes,
      account.source = face ∧
      account.fragments = front.flatMap fragments ++ back.flatMap fragments ∧
      (piece = .front face → ∃ kept ∈ front, account.fragments = kept.fragments) := by
  rcases yields.cases with rfl | rfl | ⟨spans, ahead, behind, split, rfl⟩
  · obtain ⟨only, rfl, same⟩ := List.map_eq_singleton_iff.mp frontSource
    have noBack : back = [] := List.map_eq_nil_iff.mp backSource
    subst noBack
    exact ⟨only.widen frontSubset, same, by simp [widen],
      fun _ => ⟨only, by simp, rfl⟩⟩
  · obtain ⟨only, rfl, same⟩ := List.map_eq_singleton_iff.mp backSource
    have noFront : front = [] := List.map_eq_nil_iff.mp frontSource
    subst noFront
    exact ⟨only.widen backSubset, same, by simp [widen], fun kept => by cases kept⟩
  · obtain ⟨first, rfl, rfl⟩ := List.map_eq_singleton_iff.mp frontSource
    obtain ⟨second, rfl, rfl⟩ := List.map_eq_singleton_iff.mp backSource
    have derived := Face.Fragments.both known spans split
      (first.derived.mono frontSubset) (second.derived.mono backSubset)
    exact ⟨⟨face, _, _, derived⟩, rfl, by simp, fun kept => by cases kept⟩

/-- Accounts of the two sides of a division combine into an account of the divided faces. -/
theorem combine (known : plane ∈ planes) (frontSubset : frontPlanes ⊆ planes)
    (backSubset : backPlanes ⊆ planes) {faces : List Face} {pieces : List Pieces}
    (yields : List.Forall₂ (Division.Yields plane) faces pieces)
    {front : List (Fragmentation frontPlanes)} {back : List (Fragmentation backPlanes)}
    (frontSources : front.map source = (Division.ofPieces pieces).front)
    (backSources : back.map source = (Division.ofPieces pieces).back) :
    ∃ accounts : List (Fragmentation planes),
      accounts.map source = faces ∧
      (front.flatMap fragments ++ back.flatMap fragments).Perm
        (accounts.flatMap fragments) ∧
      ∀ (index : Nat) (face : Face), faces[index]? = some face →
        pieces[index]? = some (.front face) →
        ∃ account, accounts[index]? = some account ∧
          ∃ kept ∈ front, account.fragments = kept.fragments := by
  induction yields generalizing front back with
  | nil =>
      have noFront : front = [] := List.map_eq_nil_iff.mp frontSources
      have noBack : back = [] := List.map_eq_nil_iff.mp backSources
      subst noFront noBack
      exact ⟨[], rfl, .nil, by simp⟩
  | @cons face piece faces pieces yield _ ih =>
      rw [Division.ofPieces_cons] at frontSources backSources
      obtain ⟨ahead, front, rfl, aheadSource, frontSources⟩ :=
        List.map_eq_append_iff.mp frontSources
      obtain ⟨behind, back, rfl, behindSource, backSources⟩ :=
        List.map_eq_append_iff.mp backSources
      obtain ⟨account, sourceEq, fragmentsEq, keptHere⟩ :=
        exists_account known frontSubset backSubset yield aheadSource behindSource
      obtain ⟨accounts, sourcesEq, perm, keptLater⟩ := ih frontSources backSources
      refine ⟨account :: accounts, by simp [sourceEq, sourcesEq], ?_, ?_⟩
      · simp only [List.flatMap_cons, List.flatMap_append, fragmentsEq, List.append_assoc]
        refine List.Perm.append_left _ ?_
        -- What comes from this face behind moves in front of what the rest has there.
        calc
          (front.flatMap fragments ++ (behind.flatMap fragments ++ back.flatMap fragments)).Perm
              (behind.flatMap fragments ++
                (front.flatMap fragments ++ back.flatMap fragments)) :=
            List.perm_append_comm_assoc _ _ _
          _ |>.Perm (behind.flatMap fragments ++ accounts.flatMap fragments) :=
            perm.append_left _
      · intro index found atFaces atPieces
        cases index with
        | zero =>
            simp only [List.getElem?_cons_zero, Option.some.injEq] at atFaces atPieces
            subst atFaces
            obtain ⟨kept, member, equal⟩ := keptHere atPieces
            exact ⟨account, rfl, kept, by simp [member], equal⟩
        | succ index =>
            simp only [List.getElem?_cons_succ] at atFaces atPieces
            obtain ⟨later, atIndex, kept, member, equal⟩ :=
              keptLater index found atFaces atPieces
            exact ⟨later, by simpa using atIndex, kept, by simp [member], equal⟩

end Combine

end Fragmentation

end PaintOrder
