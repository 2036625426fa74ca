import Mathlib.Data.Finite.Prod
import Mathlib.Data.Fintype.Pigeonhole
import Mathlib.Order.Interval.Finset.Nat
import Mathlib.Order.WellFounded
import PaintOrder.Proofs.Partition.Steps

/-!
# When building a partition ends

A division never has more faces on one side than the list it divides, and behind it has
fewer.  So an endless construction goes to the front from some list on, every face of which
then has a part in front for ever, while at every step some face is cut.  There are only
finitely many planes in fixed point.  Hence building a partition fails to end exactly when
what remains of one face is cut by one and the same plane again and again.

A cut by a plane with a normal of length one leaves parts that no longer span the plane.
With a longer normal the rounding of the new vertices can exceed the tolerance of the plane,
and then building may not end.
-/

namespace PaintOrder

namespace Division

variable {faces : List Face} {splitter : Fin faces.length} {division : Division}

theorem length_front_le (divided : onSplitter faces splitter = .ok division) :
    division.front.length ≤ faces.length := by
  obtain ⟨pieces, yields, _, rfl⟩ := exists_pieces_of_onSplitter divided
  rw [yields.length_eq]
  exact List.length_filterMap_le _ _

theorem length_back_lt (divided : onSplitter faces splitter = .ok division) :
    division.back.length < faces.length := by
  obtain ⟨pieces, yields, atSplitter, rfl⟩ := exists_pieces_of_onSplitter divided
  rw [yields.length_eq]
  exact List.length_filterMap_lt_length_iff_exists.mpr
    ⟨_, List.mem_of_getElem? atSplitter, rfl⟩

/-- If nothing is lost in front, the front holds a part of every face, in its place. -/
theorem getElem?_front_of_length_eq {pieces : List Pieces}
    (full : (ofPieces pieces).front.length = pieces.length) (place : Nat) :
    (ofPieces pieces).front[place]? = pieces[place]?.bind Pieces.front? := by
  have kept : ∀ piece ∈ pieces, piece.front?.isSome :=
    List.filterMap_length_eq_length.mp full
  clear full
  induction pieces generalizing place with
  | nil => rfl
  | cons piece pieces ih =>
      obtain ⟨face, inFront⟩ := Option.isSome_iff_exists.mp (kept piece (by simp))
      rw [ofPieces_cons, inFront]
      cases place with
      | zero => simp [inFront]
      | succ place =>
          simpa using ih place fun other member => kept other (by simp [member])

end Division

/-- What is left of a face in front of a plane: the face itself, or its front part. -/
def Face.Leaves (plane : Plane) (face rest : Face) : Prop :=
  rest = face ∨ ∃ back, face.split plane = .ok (rest, back)

/-- On the way from one list to the next, the face in a place is cut by a plane, and its
front part takes its place. -/
def CutAt (select : Selector) (plane : Plane) (place : Nat) (faces next : List Face) : Prop :=
  ∃ splitter face front back, select faces = some splitter ∧
    (faces.get splitter).plane = plane ∧ faces[place]? = some face ∧
    face.placement plane = .spanning ∧ face.split plane = .ok (front, back) ∧
    next[place]? = some front

namespace BuildStep

variable {select : Selector} {faces next : List Face}

theorem length_le (step : BuildStep select faces next) : next.length ≤ faces.length := by
  cases step with
  | front selected divided twoSided => exact Division.length_front_le divided
  | back selected divided twoSided finished => exact (Division.length_back_lt divided).le

/-- A step that keeps the number of faces goes to the front and leaves a rest of every face
in its place. -/
theorem leaves_of_length_eq (step : BuildStep select faces next)
    (full : next.length = faces.length) :
    ∃ splitter, select faces = some splitter ∧
      ∀ (place : Nat) (face : Face), faces[place]? = some face →
        ∃ rest, next[place]? = some rest ∧ face.Leaves (faces.get splitter).plane rest := by
  cases step with
  | @back splitter division _ _ selected divided twoSided finished =>
      exact absurd full (Division.length_back_lt divided).ne
  | @front splitter division selected divided twoSided =>
      refine ⟨splitter, selected, ?_⟩
      intro place face atPlace
      obtain ⟨pieces, yields, _, rfl⟩ := Division.exists_pieces_of_onSplitter divided
      rw [yields.length_eq] at full
      obtain ⟨faceInRange, rfl⟩ := List.getElem?_eq_some_iff.mp atPlace
      have inRange : place < pieces.length := by rwa [← yields.length_eq]
      have yield : Division.Yields (faces.get splitter).plane faces[place] pieces[place] :=
        List.Forall₂.get yields faceInRange inRange
      have hasFront : pieces[place].front?.isSome :=
        List.filterMap_length_eq_length.mp full _ (List.getElem_mem inRange)
      rw [Division.getElem?_front_of_length_eq full, List.getElem?_eq_getElem inRange]
      rcases yield.cases with whole | whole | ⟨_, front, back, split, both⟩
      · exact ⟨faces[place], by rw [whole]; rfl, .inl rfl⟩
      · rw [whole] at hasFront
        cases hasFront
      · exact ⟨front, by rw [both]; rfl, .inr ⟨back, split⟩⟩

/-- A step that keeps the number of faces cuts one of them: what is behind comes from it. -/
theorem exists_cutAt_of_length_eq (step : BuildStep select faces next)
    (full : next.length = faces.length) :
    ∃ plane place, place < faces.length ∧ CutAt select plane place faces next := by
  cases step with
  | @back splitter division _ _ selected divided twoSided finished =>
      exact absurd full (Division.length_back_lt divided).ne
  | @front splitter division selected divided twoSided =>
      obtain ⟨pieces, yields, _, rfl⟩ := Division.exists_pieces_of_onSplitter divided
      rw [yields.length_eq] at full
      obtain ⟨behind, member⟩ := List.exists_mem_of_ne_nil _ twoSided
      obtain ⟨piece, pieceMember, hasBack⟩ := List.mem_filterMap.mp member
      obtain ⟨place, inRange, rfl⟩ := List.mem_iff_getElem.mp pieceMember
      have faceInRange : place < faces.length := by rwa [yields.length_eq]
      have yield : Division.Yields (faces.get splitter).plane faces[place] pieces[place] :=
        List.Forall₂.get yields faceInRange inRange
      have hasFront : pieces[place].front?.isSome :=
        List.filterMap_length_eq_length.mp full _ pieceMember
      rcases yield.cases with whole | whole | ⟨spans, front, back, split, both⟩
      · rw [whole] at hasBack
        cases hasBack
      · rw [whole] at hasFront
        cases hasFront
      · refine ⟨_, place, faceInRange, splitter, faces[place], front, back, selected, rfl,
          by simp, spans, split, ?_⟩
        rw [Division.getElem?_front_of_length_eq full, List.getElem?_eq_getElem inRange, both]
        rfl

end BuildStep

section Finiteness

instance : Finite Fixed :=
  Finite.of_injective (fun number => number.raw.toBitVec.toFin) fun left right equal => by
    cases left
    cases right
    simpa [← Int32.toBitVec_inj, ← BitVec.toFin_inj] using equal

instance : Finite FixedVector :=
  Finite.of_injective (fun vector => (vector.x, vector.y, vector.z)) fun left right equal => by
    cases left
    cases right
    simpa using equal

instance : Finite Plane :=
  Finite.of_injective (fun plane => (plane.point, plane.normal)) fun left right equal => by
    cases left
    cases right
    simpa using equal

end Finiteness

/-- A construction in which, from some list on, what is left of one face is cut by one and
the same plane again and again. -/
structure Recutting (select : Selector) (faces : List Face) where
  lists : Nat → List Face
  starts : lists 0 = faces
  steps : ∀ index, BuildStep select (lists index) (lists (index + 1))
  plane : Plane
  place : Nat
  settled : Nat
  /-- From then on, the face in the place is a rest of the face in that place before. -/
  follows : ∀ index, settled ≤ index → ∃ splitter face rest,
    select (lists index) = some splitter ∧
    (lists index)[place]? = some face ∧ (lists (index + 1))[place]? = some rest ∧
    face.Leaves ((lists index).get splitter).plane rest
  recurs : ∀ bound, ∃ index, bound ≤ index ∧
    CutAt select plane place (lists index) (lists (index + 1))

namespace Tree

variable {select : Selector} {faces : List Face}

/-- In an endless sequence of lists the number of faces stops falling. -/
theorem exists_settled {lists : Nat → List Face}
    (steps : ∀ index, BuildStep select (lists index) (lists (index + 1))) :
    ∃ settled, ∀ index, settled ≤ index →
      (lists index).length = (lists settled).length := by
  have falls : Antitone fun index => (lists index).length :=
    antitone_nat_of_succ_le fun index => (steps index).length_le
  refine ⟨Function.argmin fun index => (lists index).length, ?_⟩
  intro index later
  have least := Function.argmin_le (fun index => (lists index).length) index
  exact Nat.le_antisymm (falls later) least

/-- Among finitely many planes and places, one pair cuts without end. -/
theorem exists_recurring {lists : Nat → List Face} {settled : Nat}
    (steps : ∀ index, BuildStep select (lists index) (lists (index + 1)))
    (level : ∀ index, settled ≤ index → (lists index).length = (lists settled).length) :
    ∃ plane place, place < (lists settled).length ∧ ∀ bound, ∃ index, bound ≤ index ∧
      CutAt select plane place (lists index) (lists (index + 1)) := by
  have cuts : ∀ index, ∃ choice : Plane × Fin (lists settled).length,
      CutAt select choice.1 choice.2 (lists (settled + index)) (lists (settled + index + 1)) := by
    intro index
    have full : (lists (settled + index + 1)).length = (lists (settled + index)).length := by
      rw [level (settled + index + 1) (by omega), level (settled + index) (by omega)]
    obtain ⟨plane, place, inRange, cut⟩ :=
      (steps (settled + index)).exists_cutAt_of_length_eq full
    rw [level (settled + index) (by omega)] at inRange
    exact ⟨(plane, ⟨place, inRange⟩), cut⟩
  choose choice cut using cuts
  obtain ⟨⟨plane, place⟩, infinite⟩ := Finite.exists_infinite_fiber choice
  refine ⟨plane, place, place.isLt, ?_⟩
  intro bound
  obtain ⟨index, chosen, later⟩ := (Set.infinite_coe_iff.mp infinite).exists_gt bound
  have same : choice index = (plane, place) := chosen
  have recurring := cut index
  rw [same] at recurring
  exact ⟨settled + index, by omega, recurring⟩

/-- A construction is endless exactly when it contains an endless recutting. -/
theorem endless_iff_recutting : Endless select faces ↔ Nonempty (Recutting select faces) := by
  constructor
  · intro endless
    obtain ⟨lists, starts, steps⟩ := endless_iff_exists_steps.mp endless
    obtain ⟨settled, level⟩ := exists_settled steps
    obtain ⟨plane, place, inRange, recurs⟩ := exists_recurring steps level
    refine ⟨⟨lists, starts, steps, plane, place, settled, ?_, recurs⟩⟩
    intro index later
    have full : (lists (index + 1)).length = (lists index).length := by
      rw [level (index + 1) (by omega), level index later]
    obtain ⟨splitter, selected, leaves⟩ := (steps index).leaves_of_length_eq full
    have stillInRange : place < (lists index).length := by rwa [level index later]
    have occupied : (lists index)[place]? = some (lists index)[place] :=
      List.getElem?_eq_getElem stillInRange
    obtain ⟨rest, atPlace, left⟩ := leaves place _ occupied
    exact ⟨splitter, _, rest, selected, occupied, atPlace, left⟩
  · rintro ⟨recutting⟩
    exact endless_iff_exists_steps.mpr ⟨_, recutting.starts, recutting.steps⟩

end Tree

/-- What decides whether the partition of a list is ever finished. -/
theorem Partition.build_eq_unfinished_iff {select : Selector} {faces : List Face}
    {limit : Nat} : build limit select faces = .error .unfinished ↔
      faces ≠ [] ∧ validateFaces faces = .ok () ∧
        Tree.build select limit faces = .error .unfinished := by
  rw [build]
  split_ifs with empty
  · simp_all
  · have nonempty : faces ≠ [] := by simpa using empty
    cases valid : validateFaces faces with
    | error cause =>
        simp [liftM_structural, Except.mapError, bind, Except.bind]
    | ok =>
        cases built : Tree.build select limit faces <;>
          simp [liftM_structural, nonempty, Except.mapError, bind, Except.bind, pure,
            Except.pure]

/-- Building a partition ends, with a tree or with an error, exactly when no face of a valid
list is cut by one and the same plane without end. -/
theorem partition_build_ends_iff_no_recutting (select : Selector) (faces : List Face) :
    (∃ limit, Partition.build limit select faces ≠ .error .unfinished) ↔
      (validateFaces faces = .ok () → IsEmpty (Recutting select faces)) := by
  rw [← not_nonempty_iff, ← Tree.endless_iff_recutting]
  constructor
  · rintro ⟨limit, ends⟩ valid endless
    apply ends
    have nonempty : faces ≠ [] := by
      rintro rfl
      obtain ⟨next, step, _⟩ := endless.exists_step
      cases step with
      | @front splitter => exact splitter.elim0
      | @back splitter => exact splitter.elim0
    exact Partition.build_eq_unfinished_iff.mpr ⟨nonempty, valid, endless limit⟩
  · intro bounded
    by_contra never
    push Not at never
    have valid := (Partition.build_eq_unfinished_iff.mp (never 0)).2.1
    exact bounded valid fun limit => (Partition.build_eq_unfinished_iff.mp (never limit)).2.2

section Example

/-- A wall whose normal is about a hundred times too long. -/
def steepWall : Face :=
  .plainTriangle ⟨⟨0⟩, ⟨0⟩, ⟨0⟩⟩ ⟨⟨0⟩, ⟨0⟩, ⟨65536⟩⟩ ⟨⟨-1966080⟩, ⟨6553600⟩, ⟨0⟩⟩
    ⟨⟨6553600⟩, ⟨1966080⟩, ⟨0⟩⟩ (.flat 1)

/-- A sheet through which the wall runs. -/
def cutSheet : Face :=
  .plainTriangle ⟨⟨65536⟩, ⟨0⟩, ⟨0⟩⟩ ⟨⟨-65536⟩, ⟨0⟩, ⟨0⟩⟩ ⟨⟨-65536⟩, ⟨5001⟩, ⟨65536⟩⟩
    ⟨⟨0⟩, ⟨65536⟩, ⟨0⟩⟩ (.flat 2)

/-- What is left of the sheet in front of the wall.  Its last vertex, rounded, is behind the
wall, and cutting it there gives the same vertex again. -/
def cutSheetRest : Face :=
  .plainTriangle ⟨⟨65536⟩, ⟨0⟩, ⟨0⟩⟩ ⟨⟨0⟩, ⟨0⟩, ⟨0⟩⟩ ⟨⟨-759⟩, ⟨2529⟩, ⟨33147⟩⟩
    ⟨⟨0⟩, ⟨65536⟩, ⟨0⟩⟩ (.flat 2)

def cutSheetSliver : Face :=
  .plainTriangle ⟨⟨0⟩, ⟨0⟩, ⟨0⟩⟩ ⟨⟨-759⟩, ⟨2529⟩, ⟨33147⟩⟩ ⟨⟨-759⟩, ⟨2529⟩, ⟨33147⟩⟩
    ⟨⟨0⟩, ⟨65536⟩, ⟨0⟩⟩ (.flat 2)

/-- The sheet is cut off at the wall, and its rest is left. -/
theorem cutSheet_step :
    BuildStep (Splitter.leastCost Splitter.defaultSpanWeight) [steepWall, cutSheet]
      [steepWall, cutSheetRest] := by
  have selected : Splitter.leastCost Splitter.defaultSpanWeight [steepWall, cutSheet] =
      some ⟨0, by decide⟩ := by decide +kernel
  have fronts : (Division.onSplitter [steepWall, cutSheet] ⟨0, by decide⟩).toOption.map
      Division.front = some [steepWall, cutSheetRest] := by decide +kernel
  have twoSided : (Division.onSplitter [steepWall, cutSheet] ⟨0, by decide⟩).toOption.map
      (fun division => division.back.isEmpty) = some false := by decide +kernel
  cases divided : Division.onSplitter [steepWall, cutSheet] ⟨0, by decide⟩ with
  | error cause =>
      rw [divided] at fronts
      cases fronts
  | ok division =>
      rw [divided] at fronts twoSided
      have front : division.front = [steepWall, cutSheetRest] := Option.some.inj fronts
      rw [← front]
      refine .front selected divided ?_
      intro empty
      simp [Except.toOption, empty] at twoSided

theorem cutSheetRest_step :
    BuildStep (Splitter.leastCost Splitter.defaultSpanWeight) [steepWall, cutSheetRest]
      [steepWall, cutSheetRest] := by
  have selected : Splitter.leastCost Splitter.defaultSpanWeight [steepWall, cutSheetRest] =
      some ⟨0, by decide⟩ := by decide +kernel
  have divided : Division.onSplitter [steepWall, cutSheetRest] ⟨0, by decide⟩ =
      .ok ⟨[steepWall, cutSheetRest], [cutSheetSliver]⟩ := by decide +kernel
  exact .front selected divided (by simp)

/-- Two faces that pass every check, and of which no partition is ever finished. -/
theorem steepWall_build_never_ends :
    validateFaces [steepWall, cutSheet] = .ok () ∧
      ∀ limit, Partition.build limit (Splitter.leastCost Splitter.defaultSpanWeight)
        [steepWall, cutSheet] = .error .unfinished := by
  have valid : validateFaces [steepWall, cutSheet] = .ok () := by decide +kernel
  refine ⟨valid, ?_⟩
  intro limit
  have restEndless := Tree.endless_of_steps fun _ => cutSheetRest_step
  have unfinished : Tree.build (Splitter.leastCost Splitter.defaultSpanWeight) limit
      [steepWall, cutSheet] = .error .unfinished := by
    cases limit with
    | zero => rfl
    | succ limit => exact Tree.unfinished_of_step cutSheet_step (restEndless 0 limit)
  exact Partition.build_eq_unfinished_iff.mpr ⟨by simp, valid, unfinished⟩

end Example

end PaintOrder
