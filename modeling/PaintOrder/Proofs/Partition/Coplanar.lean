import PaintOrder.Proofs.Binary64.Arithmetic
import PaintOrder.Proofs.Partition.Scoring
import PaintOrder.Proofs.Partition.Steps

/-!
# Faces in one plane

Faces that all lie in each other's planes differ only in which way they face.  None of them is
ever cut.  A face of such a list has the faces that face the same way in front of it and the
others behind it, so the list is split exactly if it mixes faces that face the same way with
faces that do not.  What remains in the leaves is no longer mixed.
-/

namespace PaintOrder

theorem FloatVector.dot_comm (left right : FloatVector) : left.dot right = right.dot left := by
  unfold dot
  rw [Binary64.product_comm left.x, Binary64.product_comm left.y, Binary64.product_comm left.z]

namespace Face

variable {face other : Face} {plane : Plane}

/-- A face all of whose vertices are on a plane. -/
def LiesIn (face : Face) (plane : Plane) : Prop :=
  ∀ vertex ∈ face.vertices, plane.side vertex.position = .on

instance (face : Face) (plane : Plane) : Decidable (face.LiesIn plane) :=
  inferInstanceAs (Decidable (∀ vertex ∈ face.vertices, plane.side vertex.position = .on))

/-- Two faces that face the same way, or at a right angle to each other. -/
def Along (face other : Face) : Prop :=
  face.normal.toFloat.dot other.normal.toFloat ≥ 0

instance (face other : Face) : Decidable (face.Along other) :=
  inferInstanceAs (Decidable (face.normal.toFloat.dot other.normal.toFloat ≥ 0))

theorem Along.symm (along : face.Along other) : other.Along face := by
  unfold Along at along ⊢
  rwa [FloatVector.dot_comm]

theorem placement_of_liesIn (liesIn : face.LiesIn other.plane) :
    face.placement other.plane = if face.Along other then .front else .back := by
  have sides : ∀ side, side ≠ .on →
      (face.vertices.map fun vertex => other.plane.side vertex.position).contains side =
        false := by
    intro side strict
    rw [List.contains_eq_mem, decide_eq_false_iff_not, List.mem_map]
    rintro ⟨vertex, member, rfl⟩
    exact strict (liesIn vertex member)
  rw [placement, placementOfSides, sides .front (by decide), sides .back (by decide)]
  change (if decide (face.Along other) = true then Placement.front else .back) = _
  simp only [decide_eq_true_eq]

theorem placement_ne_spanning (liesIn : face.LiesIn other.plane) :
    face.placement other.plane ≠ .spanning := by
  rw [placement_of_liesIn liesIn]
  split_ifs <;> simp

end Face

/-- Every face of a list lies in the plane of every face. -/
def Coplanar (faces : List Face) : Prop :=
  ∀ face ∈ faces, ∀ other ∈ faces, face.LiesIn other.plane

instance (faces : List Face) : Decidable (Coplanar faces) :=
  inferInstanceAs (Decidable (∀ face ∈ faces, ∀ other ∈ faces, face.LiesIn other.plane))

/-- Any two faces of a list face the same way, or no two do. -/
def Unmixed (faces : List Face) : Prop :=
  faces.Pairwise Face.Along ∨ faces.Pairwise fun face other => ¬face.Along other

instance (faces : List Face) : Decidable (Unmixed faces) :=
  inferInstanceAs (Decidable (_ ∨ _))

section Others

variable {faces : List Face}

/-- A symmetric relation holds between any two faces exactly if it holds between every face and
all the others. -/
theorem pairwise_iff_others {related : Face → Face → Prop}
    (symmetric : ∀ face other, related face other → related other face) :
    faces.Pairwise related ↔
      ∀ candidate : Fin faces.length, ∀ other ∈ faces.eraseIdx candidate,
        related other (faces.get candidate) := by
  rw [List.pairwise_iff_getElem]
  constructor
  · intro ordered candidate other member
    obtain ⟨place, inRange, different, rfl⟩ := List.mem_eraseIdx_iff_getElem.mp member
    rcases Nat.lt_or_gt_of_ne different with before | behind
    · exact ordered place candidate inRange candidate.isLt before
    · exact symmetric _ _ (ordered candidate place candidate.isLt inRange behind)
  · intro others first second firstInRange secondInRange before
    exact others ⟨second, secondInRange⟩ _
      (List.mem_eraseIdx_iff_getElem.mpr ⟨first, firstInRange, Nat.ne_of_lt before, rfl⟩)

/-- A list is not mixed if no face has both faces that face the same way and faces that do
not. -/
theorem unmixed_iff_others :
    Unmixed faces ↔ ∀ candidate : Fin faces.length,
      (∀ other ∈ faces.eraseIdx candidate, other.Along (faces.get candidate)) ∨
        ∀ other ∈ faces.eraseIdx candidate, ¬other.Along (faces.get candidate) := by
  rw [Unmixed, pairwise_iff_others fun _ _ along => along.symm,
    pairwise_iff_others fun _ _ against along => against along.symm]
  constructor
  · rintro (along | against) candidate
    · exact .inl (along candidate)
    · exact .inr (against candidate)
  · intro each
    by_contra mixed
    rw [not_or, not_forall, not_forall] at mixed
    obtain ⟨⟨first, firstMixed⟩, second, secondMixed⟩ := mixed
    -- The two faces would have to face the same way and not to.
    have against := (each first).resolve_left firstMixed
    have along := (each second).resolve_right secondMixed
    by_cases same : first = second
    · exact firstMixed (same ▸ along)
    · have different : first.val ≠ second.val := fun equal => same (Fin.ext equal)
      have firstThere : faces.get first ∈ faces.eraseIdx second :=
        List.mem_eraseIdx_iff_getElem.mpr ⟨first, first.isLt, different, rfl⟩
      have secondThere : faces.get second ∈ faces.eraseIdx first :=
        List.mem_eraseIdx_iff_getElem.mpr ⟨second, second.isLt, different.symm, rfl⟩
      exact against _ secondThere (along _ firstThere).symm

end Others

namespace Coplanar

variable {faces smaller : List Face} {spanWeight : Nat}

theorem sublist (coplanar : Coplanar faces) (part : smaller.Sublist faces) : Coplanar smaller :=
  fun face member other otherMember =>
    coplanar face (part.subset member) other (part.subset otherMember)

theorem apart (coplanar : Coplanar faces) : faces.Pairwise Face.Apart :=
  List.pairwise_of_forall_mem_list fun face member other otherMember =>
    ⟨Face.placement_ne_spanning (coplanar face member other otherMember),
      Face.placement_ne_spanning (coplanar other otherMember face member)⟩

theorem mem_placements_iff (coplanar : Coplanar faces) (candidate : Fin faces.length)
    (placement : Placement) :
    placement ∈ Splitter.placements faces candidate ↔
      ∃ other ∈ faces.eraseIdx candidate,
        (if other.Along (faces.get candidate) then Placement.front else .back) = placement := by
  rw [Splitter.placements, List.mem_map]
  refine exists_congr fun other => and_congr_right fun member => ?_
  rw [Face.placement_of_liesIn (coplanar other (List.mem_of_mem_eraseIdx member) _
    (List.get_mem faces candidate))]

theorem count_spanning (coplanar : Coplanar faces) (candidate : Fin faces.length) :
    (Splitter.placements faces candidate).count .spanning = 0 := by
  rw [List.count_eq_zero, coplanar.mem_placements_iff]
  rintro ⟨other, _, spans⟩
  split_ifs at spans

/-- A face is no splitter if all others are on one side of it. -/
theorem cost?_eq_none_iff (coplanar : Coplanar faces) (candidate : Fin faces.length) :
    Splitter.cost? spanWeight faces candidate = none ↔
      (∀ other ∈ faces.eraseIdx candidate, other.Along (faces.get candidate)) ∨
        ∀ other ∈ faces.eraseIdx candidate, ¬other.Along (faces.get candidate) := by
  rw [Splitter.cost?_eq_none_iff, coplanar.count_spanning, List.count_eq_zero,
    List.count_eq_zero, coplanar.mem_placements_iff, coplanar.mem_placements_iff, or_comm]
  simp

theorem leastCost_eq_none_iff (coplanar : Coplanar faces) :
    Splitter.leastCost spanWeight faces = none ↔ Unmixed faces := by
  rw [Splitter.leastCost_eq_none_iff, unmixed_iff_others]
  exact forall_congr' coplanar.cost?_eq_none_iff

end Coplanar

namespace Division

/-- A list is divided if no face of it spans the plane. -/
theorem exists_ofFaces {plane : Plane} {faces : List Face}
    (clear : ∀ face ∈ faces, face.placement plane ≠ .spanning) :
    ∃ division, ofFaces plane faces = .ok division := by
  induction faces with
  | nil => exact ⟨_, rfl⟩
  | cons face rest ih =>
      obtain ⟨division, divided⟩ :=
        ih fun other member => clear other (List.mem_cons_of_mem _ member)
      rw [ofFaces, divided, Face.cut]
      cases placed : face.placement plane with
      | front => exact ⟨_, rfl⟩
      | back => exact ⟨_, rfl⟩
      | spanning => exact absurd placed (clear face List.mem_cons_self)

theorem exists_onSplitter_of_coplanar {faces : List Face} (coplanar : Coplanar faces)
    (splitter : Fin faces.length) : ∃ division, onSplitter faces splitter = .ok division := by
  have clear : ∀ face ∈ faces, face.placement (faces.get splitter).plane ≠ .spanning :=
    fun face member =>
      Face.placement_ne_spanning (coplanar face member _ (List.get_mem faces splitter))
  obtain ⟨before, beforeDivided⟩ := exists_ofFaces fun face member =>
    clear face (List.mem_of_mem_take member)
  obtain ⟨after, afterDivided⟩ := exists_ofFaces fun face member =>
    clear face (List.mem_of_mem_drop member)
  rw [onSplitter, beforeDivided, afterDivided]
  exact ⟨_, rfl⟩

end Division

/-- The tree of a list in one plane is a leaf or a split, as the list is mixed or not.  There is
room for it as soon as splits may nest as deeply as there are faces. -/
theorem Tree.exists_build_of_coplanar {spanWeight limit : Nat} {faces : List Face}
    (coplanar : Coplanar faces) (nonempty : faces ≠ []) (enough : faces.length ≤ limit) :
    ∃ tree, build (Splitter.leastCost spanWeight) limit faces = .ok tree ∧
      (Unmixed faces → tree = .leaf faces) ∧ (¬Unmixed faces → tree.isLeaf = false) ∧
      ∀ leaf ∈ tree.leaves, leaf.Sublist faces ∧ Unmixed leaf := by
  induction limit generalizing faces with
  | zero => exact absurd (List.eq_nil_of_length_eq_zero (Nat.le_zero.mp enough)) nonempty
  | succ limit ih =>
      cases selected : Splitter.leastCost spanWeight faces with
      | none =>
          have unmixed := coplanar.leastCost_eq_none_iff.mp selected
          refine ⟨.leaf faces, by rw [build, selected], fun _ => rfl,
            fun mixed => absurd unmixed mixed, ?_⟩
          intro leaf member
          obtain rfl := List.mem_singleton.mp member
          exact ⟨.refl leaf, unmixed⟩
      | some splitter =>
          have mixed : ¬Unmixed faces := by
            intro unmixed
            have unsplit : Splitter.leastCost spanWeight faces = none :=
              coplanar.leastCost_eq_none_iff.mpr unmixed
            rw [selected] at unsplit
            cases unsplit
          obtain ⟨division, divided⟩ := Division.exists_onSplitter_of_coplanar coplanar splitter
          have inFront := List.ne_nil_of_mem (Division.splitter_mem_front divided)
          have behind := twoSided_of_leastCost selected divided
          have uncut := Division.uncut_of_apart coplanar.apart divided
          -- Neither side is empty, so both are shorter than the list.
          have lengths := uncut.perm.length_eq
          rw [List.length_append] at lengths
          have frontPositive := List.length_pos_of_ne_nil inFront
          have backPositive := List.length_pos_of_ne_nil behind
          obtain ⟨front, frontBuilt, _, _, frontLeaves⟩ :=
            ih (coplanar.sublist uncut.front) inFront (by omega)
          obtain ⟨back, backBuilt, _, _, backLeaves⟩ :=
            ih (coplanar.sublist uncut.back) behind (by omega)
          refine ⟨.split (faces.get splitter).plane front back, ?_,
            fun unmixed => absurd unmixed mixed, fun _ => rfl, ?_⟩
          · rw [build_of_division selected divided behind, frontBuilt, backBuilt]
            rfl
          · intro leaf member
            rcases List.mem_append.mp member with there | there
            · obtain ⟨part, unmixed⟩ := frontLeaves leaf there
              exact ⟨part.trans uncut.front, unmixed⟩
            · obtain ⟨part, unmixed⟩ := backLeaves leaf there
              exact ⟨part.trans uncut.back, unmixed⟩

/-- Faces in one plane are never cut.  Whatever the penalty for cuts, the partition of a list of
proper polygons in one plane holds just its faces, and no leaf mixes faces that face the same way
with faces that do not.  It is a single leaf with the list as it is exactly if the list itself
is not mixed. -/
theorem partition_of_coplanar {limit : Nat} {faces : List Face} (nonempty : faces ≠ [])
    (valid : validateFaces faces = .ok ()) (coplanar : Coplanar faces)
    (enough : faces.length ≤ limit) (spanWeight : Nat) :
    ∃ tree, Partition.build limit (Splitter.leastCost spanWeight) faces =
        .ok { root? := some tree } ∧
      (Unmixed faces → tree = .leaf faces) ∧ (¬Unmixed faces → tree.isLeaf = false) ∧
      tree.faces.Perm faces ∧ ∀ leaf ∈ tree.leaves, leaf.Sublist faces ∧ Unmixed leaf := by
  obtain ⟨tree, built, whole, split, leaves⟩ :=
    Tree.exists_build_of_coplanar coplanar nonempty enough
  refine ⟨tree, ?_, whole, split, Tree.perm_of_apart coplanar.apart built, leaves⟩
  have notEmpty : faces.isEmpty = false := by simpa using nonempty
  rw [Partition.build, notEmpty, valid, built]
  rfl

section Example

/-- Three triangles side by side on the ground, of which the last one faces down. -/
def mixedSheets : List Face :=
  [.plainTriangle ⟨.zero, .zero, .zero⟩ ⟨.one, .zero, .zero⟩ ⟨.zero, .one, .zero⟩
      ⟨.zero, .zero, .one⟩ (.flat 1),
    .plainTriangle ⟨⟨131072⟩, .zero, .zero⟩ ⟨⟨196608⟩, .zero, .zero⟩ ⟨⟨131072⟩, .one, .zero⟩
      ⟨.zero, .zero, .one⟩ (.flat 2),
    .plainTriangle ⟨⟨262144⟩, .zero, .zero⟩ ⟨⟨262144⟩, .one, .zero⟩ ⟨⟨327680⟩, .zero, .zero⟩
      ⟨.zero, .zero, ⟨-65536⟩⟩ (.flat 3)]

theorem mixedSheets_stay_whole :
    mixedSheets ≠ [] ∧ validateFaces mixedSheets = .ok () ∧ Coplanar mixedSheets ∧
      mixedSheets.length ≤ 3 ∧
      ∃ tree, Partition.build 3 (Splitter.leastCost 6) mixedSheets =
          .ok { root? := some tree } ∧
        tree.isLeaf = false ∧ tree.faces.Perm mixedSheets ∧
        ∀ leaf ∈ tree.leaves, leaf.Sublist mixedSheets ∧ Unmixed leaf := by
  have nonempty : mixedSheets ≠ [] := by decide
  have valid : validateFaces mixedSheets = .ok () := by decide +kernel
  have coplanar : Coplanar mixedSheets := by decide +kernel
  have mixed : ¬Unmixed mixedSheets := by decide +kernel
  obtain ⟨tree, built, _, split, perm, leaves⟩ :=
    partition_of_coplanar nonempty valid coplanar (Nat.le_refl 3) 6
  exact ⟨nonempty, valid, coplanar, Nat.le_refl 3, tree, built, split mixed, perm, leaves⟩

/-- Proper polygons in one plane need not form a single leaf: the triangle that faces down is split
off. -/
theorem mixedSheets_are_split :
    mixedSheets ≠ [] ∧ validateFaces mixedSheets = .ok () ∧ Coplanar mixedSheets ∧
      Partition.build 3 (Splitter.leastCost 6) mixedSheets =
        .ok { root? := some (.split ⟨.zero, ⟨.zero, .zero, .one⟩⟩ (.leaf (mixedSheets.take 2))
          (.leaf (mixedSheets.drop 2))) } := by
  decide +kernel

end Example

end PaintOrder
