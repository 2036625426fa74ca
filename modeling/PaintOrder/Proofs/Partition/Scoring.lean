import PaintOrder.Proofs.Partition.Cutting
import PaintOrder.Proofs.Partition.Validity
import PaintOrder.Proofs.Sorting

/-!
# Costs say what a split does

The selector of least cost looks at how the faces of a list lie before a tree is built of
them.  What it counts is what the division then yields, so it never picks a face with nothing
behind, and a list of which it picks none has no face that spans the plane of another.  The
trees that are built with it therefore pass their own check, at every node.
-/

namespace PaintOrder

namespace Splitter

variable {spanWeight : Nat} {faces : List Face} {splitter : Fin faces.length}

/-- A candidate is rejected if it cuts nothing and one side of it is empty. -/
theorem cost?_eq_none_iff :
    cost? spanWeight faces splitter = none ↔
      (placements faces splitter).count .spanning = 0 ∧
        ((placements faces splitter).count .front = 0 ∨
          (placements faces splitter).count .back = 0) := by
  simp only [cost?, costOfPlacements]
  split_ifs with rejected
  · simpa using rejected
  · simpa using rejected

theorem mem_accepted_iff {candidate : Fin faces.length} {cost : Nat} :
    (candidate, cost) ∈ accepted spanWeight faces ↔
      cost? spanWeight faces candidate = some cost := by
  simp [accepted]

/-- Without a choice, every candidate is rejected. -/
theorem cost?_of_leastCost_eq_none (unsplit : leastCost spanWeight faces = none)
    (candidate : Fin faces.length) : cost? spanWeight faces candidate = none := by
  by_contra scored
  obtain ⟨cost, isCost⟩ := Option.ne_none_iff_exists'.mp scored
  have isAccepted : (candidate, cost) ∈ accepted spanWeight faces := mem_accepted_iff.mpr isCost
  rw [leastCost, Option.map_eq_none_iff, minOn?_eq_none_iff] at unsplit
  rw [unsplit] at isAccepted
  cases isAccepted

/-- A face that was chosen has a cost. -/
theorem exists_cost_of_leastCost (selected : leastCost spanWeight faces = some splitter) :
    ∃ cost, cost? spanWeight faces splitter = some cost := by
  obtain ⟨⟨candidate, cost⟩, least, rfl⟩ := Option.map_eq_some_iff.mp selected
  exact ⟨cost, mem_accepted_iff.mp (List.minOn?_mem least)⟩

/-- There is no choice exactly if every candidate is rejected. -/
theorem leastCost_eq_none_iff :
    leastCost spanWeight faces = none ↔ ∀ candidate, cost? spanWeight faces candidate = none := by
  refine ⟨cost?_of_leastCost_eq_none, ?_⟩
  intro rejected
  by_contra chosen
  obtain ⟨splitter, selected⟩ := Option.ne_none_iff_exists'.mp chosen
  obtain ⟨cost, isCost⟩ := exists_cost_of_leastCost selected
  rw [rejected splitter] at isCost
  cases isCost

end Splitter

/-- A cut only fails where it leaves no polygon. -/
theorem Face.cut_eq_error {face : Face} {plane : Plane} {cause : StructuralError}
    (failed : face.cut plane = .error cause) : ∃ count, cause = .degenerateSplit count := by
  rw [Face.cut] at failed
  cases placed : face.placement plane with
  | front =>
      rw [placed] at failed
      cases failed
  | back =>
      rw [placed] at failed
      cases failed
  | spanning =>
      simp only [placed, bind_eq_error] at failed
      rcases failed with split | ⟨_, _, ⟨⟩⟩
      simp only [Face.split] at split
      split_ifs at split
      cases split
      exact ⟨_, rfl⟩

namespace Division

/-- A division has as many faces on each side as there are faces that lie there or span the
plane. -/
theorem length_ofFaces {plane : Plane} {faces : List Face} {division : Division}
    (divided : ofFaces plane faces = .ok division) :
    division.front.length = (faces.map fun face => face.placement plane).count .front +
        (faces.map fun face => face.placement plane).count .spanning ∧
      division.back.length = (faces.map fun face => face.placement plane).count .back +
        (faces.map fun face => face.placement plane).count .spanning := by
  obtain ⟨pieces, related, rfl⟩ := ofFaces_eq_ok divided
  clear divided
  induction related with
  | nil => exact ⟨rfl, rfl⟩
  | @cons face piece faces pieces cut _ ih =>
      rw [ofPieces_cons, List.map_cons]
      rcases Face.cut_eq_ok cut with ⟨placed, rfl⟩ | ⟨placed, rfl⟩ | ⟨placed, _, _, _, rfl⟩
      all_goals
        simp [placed, ih, Pieces.front?, Pieces.back?]
        omega

/-- The two sides of a list hold what was counted for the splitter, which is in front. -/
theorem length_onSplitter {faces : List Face} {splitter : Fin faces.length}
    {division : Division} (divided : onSplitter faces splitter = .ok division) :
    division.front.length = 1 + (Splitter.placements faces splitter).count .front +
        (Splitter.placements faces splitter).count .spanning ∧
      division.back.length = (Splitter.placements faces splitter).count .back +
        (Splitter.placements faces splitter).count .spanning := by
  simp only [onSplitter, bind_eq_ok, pure_eq_ok] at divided
  obtain ⟨before, beforeDivided, after, afterDivided, rfl⟩ := divided
  obtain ⟨beforeFront, beforeBack⟩ := length_ofFaces beforeDivided
  obtain ⟨afterFront, afterBack⟩ := length_ofFaces afterDivided
  rw [Splitter.placements, List.eraseIdx_eq_take_drop_succ, List.map_append]
  simp only [List.length_append, List.length_cons, List.count_append]
  omega

/-- A division only fails at a cut that leaves no polygon. -/
theorem ofFaces_eq_error {plane : Plane} {faces : List Face} {cause : StructuralError}
    (failed : ofFaces plane faces = .error cause) : ∃ count, cause = .degenerateSplit count := by
  induction faces with
  | nil => cases failed
  | cons face rest ih =>
      simp only [ofFaces, bind_eq_error] at failed
      rcases failed with cut | ⟨_, _, later | ⟨_, _, ⟨⟩⟩⟩
      · exact Face.cut_eq_error cut
      · exact ih later

theorem onSplitter_eq_error {faces : List Face} {splitter : Fin faces.length}
    {cause : StructuralError} (failed : onSplitter faces splitter = .error cause) :
    ∃ count, cause = .degenerateSplit count := by
  simp only [onSplitter, bind_eq_error] at failed
  rcases failed with before | ⟨_, _, after | ⟨_, _, ⟨⟩⟩⟩
  · exact ofFaces_eq_error before
  · exact ofFaces_eq_error after

end Division

namespace Tree

/-- A chosen splitter has something behind. -/
theorem twoSided_of_leastCost {spanWeight : Nat} {faces : List Face}
    {splitter : Fin faces.length} {division : Division}
    (selected : Splitter.leastCost spanWeight faces = some splitter)
    (divided : Division.onSplitter faces splitter = .ok division) : division.back ≠ [] := by
  intro empty
  obtain ⟨cost, isCost⟩ := Splitter.exists_cost_of_leastCost selected
  have nothing := (Division.length_onSplitter divided).2
  rw [empty, List.length_nil] at nothing
  have rejected : Splitter.cost? spanWeight faces splitter = none :=
    Splitter.cost?_eq_none_iff.mpr ⟨by omega, .inr (by omega)⟩
  rw [isCost] at rejected
  cases rejected

/-- A list without a choice has no face that spans the plane of another. -/
theorem clear_of_leastCost {spanWeight : Nat} {faces : List Face}
    (unsplit : Splitter.leastCost spanWeight faces = none) : hasSpanningFace faces = false := by
  rw [hasSpanningFace, List.any_eq_false]
  intro splitter _ found
  obtain ⟨face, member, spans⟩ := List.any_eq_true.mp found
  have uncut := (Splitter.cost?_eq_none_iff.mp
    (Splitter.cost?_of_leastCost_eq_none unsplit splitter)).1
  refine List.count_eq_zero.mp uncut (List.mem_map.mpr ⟨face, member, ?_⟩)
  simpa using spans

/-- Building a tree fails at a cut that leaves no polygon, at a splitter with nothing behind,
or at the limit. -/
theorem build_eq_error {select : Selector} {limit : Nat} {faces : List Face} {cause : Error}
    (failed : build select limit faces = .error cause) :
    cause = .unfinished ∨ (∃ count, cause = .structural (.degenerateSplit count)) ∨
      ∃ (list : List Face) (splitter : Fin list.length) (division : Division),
        select list = some splitter ∧ Division.onSplitter list splitter = .ok division ∧
        division.back = [] ∧ cause = .structural .oneSidedNode := by
  induction limit generalizing faces cause with
  | zero =>
      cases failed
      exact .inl rfl
  | succ limit ih =>
      rw [build] at failed
      cases selected : select faces with
      | none =>
          rw [selected] at failed
          cases failed
      | some splitter =>
          simp only [selected, bind_eq_error, liftM_structural, mapError_eq_error,
            mapError_eq_ok] at failed
          rcases failed with ⟨inner, divisionFailed, rfl⟩ | ⟨division, divided, failed⟩
          · obtain ⟨count, rfl⟩ := Division.onSplitter_eq_error divisionFailed
            exact .inr (.inl ⟨count, rfl⟩)
          · split_ifs at failed with oneSided
            · rcases bind_eq_error.mp failed with oneSidedNode | ⟨_, impossible, _⟩
              · cases oneSidedNode
                exact .inr (.inr ⟨faces, splitter, division, selected, divided,
                  by simpa using oneSided, rfl⟩)
              · exact absurd impossible throw_ne_ok
            · simp only [bind_eq_error] at failed
              rcases failed with front | ⟨_, _, back | ⟨_, _, ⟨⟩⟩⟩
              · exact ih front
              · exact ih back

/-- Every node of a tree is what the costs of its list say.  A leaf holds a list of which every
candidate is rejected, and none of its faces spans the plane of another.  A split has a splitter
with a cost and a direction, and its sides are built of lists with as many faces as were counted
for them. -/
inductive Scored (spanWeight : Nat) : List Face → Tree → Prop
  | leaf {faces : List Face}
      (rejected : ∀ candidate, Splitter.cost? spanWeight faces candidate = none)
      (apart : faces.Pairwise Face.Apart) : Scored spanWeight faces (.leaf faces)
  | split {faces : List Face} {splitter : Fin faces.length} {cost : Nat} {division : Division}
      {front back : Tree}
      (selected : Splitter.leastCost spanWeight faces = some splitter)
      (scored : Splitter.cost? spanWeight faces splitter = some cost)
      (divided : Division.onSplitter faces splitter = .ok division)
      (frontLength : division.front.length =
        1 + (Splitter.placements faces splitter).count .front +
          (Splitter.placements faces splitter).count .spanning)
      (backLength : division.back.length =
        (Splitter.placements faces splitter).count .back +
          (Splitter.placements faces splitter).count .spanning)
      (twoSided : division.back ≠ [])
      (directed : (faces.get splitter).plane.isDegenerate = false)
      (inFront : Scored spanWeight division.front front)
      (behind : Scored spanWeight division.back back) :
      Scored spanWeight faces (.split (faces.get splitter).plane front back)

/-- Trees of proper polygons that are built with the selector of least cost are as scored, and
pass their check. -/
theorem scored_of_build {spanWeight limit : Nat} {faces : List Face} {tree : Tree}
    (built : build (Splitter.leastCost spanWeight) limit faces = .ok tree)
    (proper : ∀ face ∈ faces, face.Proper) :
    Scored spanWeight faces tree ∧ tree.validate = .ok () := by
  induction limit generalizing faces tree with
  | zero => cases built
  | succ limit ih =>
      rcases build_eq_ok built with ⟨unsplit, rfl⟩ |
        ⟨inner, splitter, division, front, back, sameLimit, selected, divided, twoSided,
          frontBuilt, backBuilt, rfl⟩
      · have clear := clear_of_leastCost unsplit
        refine ⟨.leaf (Splitter.cost?_of_leastCost_eq_none unsplit) (pairwise_apart clear), ?_⟩
        simp [validate, clear]
      · obtain rfl : limit = inner := by omega
        obtain ⟨frontProper, backProper⟩ := Division.proper_of_onSplitter divided proper
        obtain ⟨inFront, frontValid⟩ := ih frontBuilt frontProper
        obtain ⟨behind, backValid⟩ := ih backBuilt backProper
        obtain ⟨cost, isCost⟩ := Splitter.exists_cost_of_leastCost selected
        obtain ⟨frontLength, backLength⟩ := Division.length_onSplitter divided
        have directed : (faces.get splitter).plane.isDegenerate = false :=
          (proper _ (List.get_mem faces splitter)).directed
        refine ⟨.split selected isCost divided frontLength backLength twoSided directed inFront
          behind, ?_⟩
        rw [validate, directed, frontValid, backValid]
        rfl

end Tree

/-- A list of faces that is refused was refused for the fault of one of them. -/
theorem validateFaces_eq_error {faces : List Face} {cause : StructuralError}
    (failed : validateFaces faces = .error cause) :
    ∃ (index : Nat) (face : Face), faces[index]? = some face ∧
      face.validate index = .error cause := by
  obtain ⟨⟨face, index⟩, member, faulty⟩ := exists_of_forM_eq_error failed
  exact ⟨index, face, List.mem_zipIdx_iff_getElem?.mp member, faulty⟩

theorem Face.validate_ne_oneSidedNode (face : Face) (index : Nat) :
    face.validate index ≠ .error .oneSidedNode := by
  rw [validate]
  split_ifs <;> simp

/-- What the selector of least cost counts is what building yields.  A split never has a side
without faces, and a tree that is built passes its own check, with every node as scored. -/
theorem leastCost_agrees_with_building (limit spanWeight : Nat) (faces : List Face) :
    Partition.build limit (Splitter.leastCost spanWeight) faces ≠
        .error (.structural .oneSidedNode) ∧
      ∀ partition tree,
        Partition.build limit (Splitter.leastCost spanWeight) faces = .ok partition →
        partition.root? = some tree →
          tree.validate = .ok () ∧ Tree.Scored spanWeight faces tree := by
  constructor
  · intro failed
    rw [Partition.build] at failed
    split_ifs at failed with empty
    simp only [bind_eq_error, liftM_structural, mapError_eq_error] at failed
    rcases failed with ⟨cause, invalid, isCause⟩ | ⟨⟨⟩, _, treeFailed | ⟨_, _, ⟨⟩⟩⟩
    · cases isCause
      obtain ⟨index, face, _, faulty⟩ := validateFaces_eq_error invalid
      exact face.validate_ne_oneSidedNode index faulty
    · rcases Tree.build_eq_error treeFailed with
        unfinished | ⟨_, degenerate⟩ | ⟨list, splitter, division, selected, divided, oneSided, _⟩
      · cases unfinished
      · cases degenerate
      · exact Tree.twoSided_of_leastCost selected divided oneSided
  · intro partition tree built rooted
    rcases Partition.build_eq_ok built with
      ⟨_, unrooted⟩ | ⟨_, valid, same, treeBuilt, sameRoot⟩
    · rw [unrooted] at rooted
      cases rooted
    · obtain rfl : same = tree := by
        rw [sameRoot] at rooted
        exact Option.some.inj rooted
      exact (Tree.scored_of_build treeBuilt (validateFaces_eq_ok valid)).symm

section Example

theorem Partition.exists_tree_of_isSome {limit : Nat} {select : Selector} {faces : List Face}
    (hasTree : ((build limit select faces).toOption.bind root?).isSome) :
    ∃ partition tree, build limit select faces = .ok partition ∧
      partition.root? = some tree := by
  cases built : build limit select faces with
  | error cause =>
      rw [built] at hasTree
      cases hasTree
  | ok partition =>
      rw [built] at hasTree
      obtain ⟨tree, rooted⟩ := Option.isSome_iff_exists.mp hasTree
      exact ⟨partition, tree, rfl, rooted⟩

/-- The partition of a floor and a wall that runs through it splits first along the floor and
then along what is left of the wall. -/
theorem floor_and_wall_are_scored :
    ∃ partition tree,
      Partition.build 3 (Splitter.leastCost 6) [floorTriangle, crossingTriangle] =
        .ok partition ∧
      partition.root? = some tree ∧ tree.validate = .ok () ∧
      Tree.Scored 6 [floorTriangle, crossingTriangle] tree := by
  obtain ⟨partition, tree, built, rooted⟩ :
      ∃ partition tree,
        Partition.build 3 (Splitter.leastCost 6) [floorTriangle, crossingTriangle] =
          .ok partition ∧ partition.root? = some tree :=
    Partition.exists_tree_of_isSome (by decide +kernel)
  exact ⟨partition, tree, built, rooted,
    (leastCost_agrees_with_building 3 6 _).2 partition tree built rooted⟩

end Example

end PaintOrder
