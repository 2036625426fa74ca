import Mathlib.Data.List.Forall2
import PaintOrder.Partition.Build
import PaintOrder.Proofs.Outcome

/-!
# Divisions of lists of faces

Dividing a list of faces turns every face into its pieces.  The front of the division is
the list of all pieces in front and the back is the list of all pieces behind, each in the
order of the faces they come from; only the splitter becomes a front piece without being
looked at.
-/

namespace PaintOrder

namespace Division

/-- A piece of a face at a plane: what a cut makes of it, or the whole face in front, which
is how a splitter is kept. -/
def Yields (plane : Plane) (face : Face) (pieces : Pieces) : Prop :=
  face.cut plane = .ok pieces ∨ pieces = .front face

/-- The division into which given pieces fall. -/
def ofPieces (pieces : List Pieces) : Division where
  front := pieces.filterMap Pieces.front?
  back := pieces.filterMap Pieces.back?

theorem ofPieces_cons (piece : Pieces) (pieces : List Pieces) :
    ofPieces (piece :: pieces) =
      ⟨piece.front?.toList ++ (ofPieces pieces).front,
        piece.back?.toList ++ (ofPieces pieces).back⟩ := by
  cases piece <;> rfl

theorem ofPieces_append (first second : List Pieces) :
    ofPieces (first ++ second) =
      ⟨(ofPieces first).front ++ (ofPieces second).front,
        (ofPieces first).back ++ (ofPieces second).back⟩ := by
  simp [ofPieces]

/-- A list is divided by cutting every face of it. -/
theorem ofFaces_eq_ok {plane : Plane} {faces : List Face} {division : Division}
    (divided : ofFaces plane faces = .ok division) :
    ∃ pieces, List.Forall₂ (fun face piece => face.cut plane = .ok piece) faces pieces ∧
      division = ofPieces pieces := by
  induction faces generalizing division with
  | nil =>
      cases divided
      exact ⟨[], .nil, rfl⟩
  | cons face rest ih =>
      simp only [ofFaces, bind_eq_ok, pure_eq_ok] at divided
      obtain ⟨piece, cut, remainder, restDivided, rfl⟩ := divided
      obtain ⟨pieces, related, rfl⟩ := ih restDivided
      exact ⟨piece :: pieces, .cons cut related, (ofPieces_cons piece pieces).symm⟩

/-- On a splitter, every face before and after it is cut and the splitter stays in front. -/
theorem onSplitter_eq_ok {faces : List Face} {splitter : Fin faces.length}
    {division : Division} (divided : onSplitter faces splitter = .ok division) :
    ∃ before after,
      List.Forall₂ (fun face piece => face.cut (faces.get splitter).plane = .ok piece)
        (faces.take splitter) before ∧
      List.Forall₂ (fun face piece => face.cut (faces.get splitter).plane = .ok piece)
        (faces.drop (splitter + 1)) after ∧
      division = ofPieces (before ++ .front (faces.get splitter) :: after) := by
  simp only [onSplitter, bind_eq_ok, pure_eq_ok] at divided
  obtain ⟨_, beforeDivided, _, afterDivided, rfl⟩ := divided
  obtain ⟨before, beforeCut, rfl⟩ := ofFaces_eq_ok beforeDivided
  obtain ⟨after, afterCut, rfl⟩ := ofFaces_eq_ok afterDivided
  refine ⟨before, after, beforeCut, afterCut, ?_⟩
  simp [ofPieces_append, ofPieces_cons, Pieces.front?, Pieces.back?]

/-- The pieces of a division on a splitter: one entry for every face, in order, of which the
splitter's is the splitter itself in front. -/
theorem exists_pieces_of_onSplitter {faces : List Face} {splitter : Fin faces.length}
    {division : Division} (divided : onSplitter faces splitter = .ok division) :
    ∃ pieces, List.Forall₂ (Yields (faces.get splitter).plane) faces pieces ∧
      pieces[splitter.val]? = some (.front (faces.get splitter)) ∧
      division = ofPieces pieces := by
  obtain ⟨before, after, beforeCut, afterCut, rfl⟩ := onSplitter_eq_ok divided
  have beforeLength : before.length = splitter := by
    have := beforeCut.length_eq
    have := splitter.isLt
    simp at *
    omega
  refine ⟨before ++ .front (faces.get splitter) :: after, ?_, ?_, rfl⟩
  · have split : faces.take splitter ++ faces.get splitter :: faces.drop (splitter + 1) =
        faces := by
      simp
    have kept : Yields (faces.get splitter).plane (faces.get splitter)
        (.front (faces.get splitter)) :=
      Or.inr rfl
    have joined : List.Forall₂ (Yields (faces.get splitter).plane)
        (faces.take splitter ++ faces.get splitter :: faces.drop (splitter + 1))
        (before ++ .front (faces.get splitter) :: after) :=
      List.rel_append (beforeCut.imp fun _ _ cut => Or.inl cut)
        (.cons kept (afterCut.imp fun _ _ cut => Or.inl cut))
    rwa [split] at joined
  · simp [← beforeLength]

theorem splitter_mem_front {faces : List Face} {splitter : Fin faces.length}
    {division : Division} (divided : onSplitter faces splitter = .ok division) :
    faces.get splitter ∈ division.front := by
  obtain ⟨pieces, _, atSplitter, rfl⟩ := exists_pieces_of_onSplitter divided
  exact List.mem_filterMap.mpr ⟨_, List.mem_of_getElem? atSplitter, rfl⟩

end Division

end PaintOrder
