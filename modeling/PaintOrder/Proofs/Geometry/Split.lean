import Mathlib.Data.List.FinRange
import Mathlib.Data.List.Perm.Subperm
import Mathlib.Data.List.Rotate
import PaintOrder.Proofs.Geometry.Distance
import PaintOrder.Proofs.Geometry.Polygon

/-!
# The rings of the two parts of a face

The ring of a face that spans a plane changes sides at least twice, on an edge that crosses the
plane or at a vertex that lies on it.  A cut puts a vertex into the ring on every edge that
crosses, part way along it where the plane is met.  Each part is what then is left without the
vertices strictly on the other side, so it has at least three vertices, and the parts have those
on the plane in common.
-/

namespace PaintOrder

theorem ringEdges_eq_zip_rotate {α : Type} (ring : List α) :
    ringEdges ring = ring.zip (ring.rotate 1) := by
  cases ring with
  | nil => rfl
  | cons first rest => rw [ringEdges, List.rotate_cons_succ, List.rotate_zero]; rfl

theorem SidedVertex.crosses_iff {current next : SidedVertex} :
    current.crosses next ↔
      current.side = .front ∧ next.side = .back ∨ current.side = .back ∧ next.side = .front := by
  obtain ⟨_, side⟩ := current
  obtain ⟨_, otherSide⟩ := next
  cases side <;> cases otherSide <;> simp [crosses]

theorem SidedVertex.crosses_comm (current next : SidedVertex) :
    current.crosses next = next.crosses current := by
  rw [Bool.eq_iff_iff, crosses_iff, crosses_iff, and_comm, or_comm, and_comm]

namespace Face

section Rings

variable (face : Face) (plane : Plane)

/-- The place that follows a place in the ring; after the last one comes the first. -/
def after (index : Fin face.size) : Fin face.size :=
  ⟨(index + 1) % face.size, Nat.mod_lt _ (Nat.zero_lt_of_lt index.isLt)⟩

/-- The place that is reached after a number of steps around the ring. -/
def placeAt (nonempty : 0 < face.size) (steps : Nat) : Fin face.size :=
  ⟨steps % face.size, Nat.mod_lt _ nonempty⟩

def vertexAt (index : Fin face.size) : Vertex :=
  face.vertices.get index

def sidedAt (index : Fin face.size) : SidedVertex :=
  ⟨face.vertexAt index, plane.side (face.vertexAt index).position⟩

def sidedRing : List SidedVertex :=
  face.vertices.map fun vertex => ⟨vertex, plane.side vertex.position⟩

/-- Whether the edge at a place runs strictly from one side of a plane to the other. -/
def crossesAt (index : Fin face.size) : Bool :=
  (face.sidedAt plane index).crosses (face.sidedAt plane (face.after index))

/-- Whether the ring may change sides at a place: the vertex is on the plane, or the edge that
starts there crosses it. -/
def ChangesAt (index : Fin face.size) : Prop :=
  (face.sidedAt plane index).side = .on ∨ face.crossesAt plane index

/-- How far along the edge at a place the plane is met, if it is. -/
def meetingAt? (index : Fin face.size) : Option Float :=
  plane.crossing? (face.vertexAt index).position.toFloat
    (face.vertexAt (face.after index)).position.toFloat

/-- The ring with a vertex put in on every edge that crosses the plane, right after the start
of the edge.  It lies on the plane. -/
def cutRing (times : Fin face.size → Float) : List SidedVertex :=
  (List.finRange face.size).flatMap fun index =>
    face.sidedAt plane index ::
      if face.crossesAt plane index then
        [⟨(face.vertexAt index).between (face.vertexAt (face.after index)) (times index), .on⟩]
      else []

def sideCount (side : Side) : Nat :=
  (List.finRange face.size).countP fun index => (face.sidedAt plane index).side = side

def crossingCount : Nat :=
  (List.finRange face.size).countP (face.crossesAt plane)

end Rings

variable {face : Face} {plane : Plane}

/-- The edges of a ring lead from every place to the next. -/
theorem ringEdges_sidedRing :
    ringEdges (face.sidedRing plane) =
      (List.finRange face.size).map fun index =>
        (face.sidedAt plane index, face.sidedAt plane (face.after index)) := by
  rw [ringEdges_eq_zip_rotate]
  apply List.ext_getElem
  · simp [sidedRing, size]
  · intro index inEdges inRange
    simp [sidedRing, sidedAt, vertexAt, after, List.getElem_rotate, size]

section Parts

variable {times : Fin face.size → Float}
  (met : ∀ index, face.crossesAt plane index → face.meetingAt? plane index = some (times index))
include met

/-- The edge at a place adds a vertex where it crosses the plane. -/
theorem cutVertex?_sided (index : Fin face.size) :
    cutVertex? plane (face.sidedAt plane index) (face.sidedAt plane (face.after index)) =
      if face.crossesAt plane index then
        some ((face.vertexAt index).between (face.vertexAt (face.after index)) (times index))
      else none := by
  rw [cutVertex?]
  change (if face.crossesAt plane index then
    (face.meetingAt? plane index).map _ else none) = _
  split_ifs with crosses
  · rw [met index crosses]
    rfl
  · rfl

/-- The part on one side is the cut ring without what is strictly on the other side. -/
theorem partVertices_eq (other : Side) (strict : other ≠ .on) :
    partVertices plane other (face.sidedRing plane) =
      ((face.cutRing plane times).filter fun corner => corner.side ≠ other).map
        SidedVertex.vertex := by
  rw [partVertices, ringEdges_sidedRing, cutRing, List.flatMap_map, List.filter_flatMap,
    List.map_flatMap]
  refine List.flatMap_congr fun index _ => ?_
  simp only [cutVertex?_sided met index]
  by_cases beyond : (face.sidedAt plane index).side = other
  · split_ifs <;> simp [beyond, Ne.symm strict]
  · split_ifs <;> simp [beyond, Ne.symm strict]

end Parts

section Counting

/-- A kind of corners occurs in the cut ring as often as in the ring, and at all vertices that
were put in if it occurs on the plane. -/
theorem countP_cutRing (times : Fin face.size → Float) (kind : Side → Bool) :
    (face.cutRing plane times).countP (fun corner => kind corner.side) =
      (List.finRange face.size).countP (fun index => kind (face.sidedAt plane index).side) +
        if kind .on then face.crossingCount plane else 0 := by
  rw [cutRing, crossingCount]
  generalize List.finRange face.size = places
  induction places with
  | nil => simp
  | cons index places ih =>
      rw [List.flatMap_cons, List.countP_append, ih]
      by_cases crosses : face.crossesAt plane index <;> cases onPlane : kind .on <;>
        cases here : kind (face.sidedAt plane index).side <;>
        simp [crosses, onPlane, here] <;> omega

/-- Going from one side to the other, one comes to a corner on the plane, or to one after which
the edge crosses. -/
theorem exists_change (corners : Nat → SidedVertex) (start length : Nat)
    (opposite : (corners start).crosses (corners (start + length))) :
    ∃ place, start ≤ place ∧ place < start + length ∧
      ((corners place).side = .on ∨ (corners place).crosses (corners (place + 1))) := by
  induction length generalizing start with
  | zero => rcases SidedVertex.crosses_iff.mp opposite with ⟨_, _⟩ | ⟨_, _⟩ <;> simp_all
  | succ length ih =>
      by_cases crosses : (corners start).crosses (corners (start + 1))
      · exact ⟨start, Nat.le_refl _, by omega, .inr crosses⟩
      rw [show start + (length + 1) = start + 1 + length by omega,
        SidedVertex.crosses_iff] at opposite
      rw [SidedVertex.crosses_iff] at crosses
      have stopsOrStays : (corners (start + 1)).side = .on ∨
          (corners (start + 1)).side = (corners start).side := by
        cases following : (corners (start + 1)).side <;>
          rcases opposite with ⟨_, _⟩ | ⟨_, _⟩ <;> simp_all
      rcases stopsOrStays with stops | stays
      · have further : length ≠ 0 := by
          rintro rfl
          simp [stops] at opposite
        exact ⟨start + 1, by omega, by omega, .inl stops⟩
      · rw [← stays] at opposite
        obtain ⟨place, later, earlier, change⟩ := ih _ (SidedVertex.crosses_iff.mpr opposite)
        exact ⟨place, by omega, by omega, change⟩

@[simp] theorem placeAt_val {nonempty : 0 < face.size} (index : Fin face.size) :
    face.placeAt nonempty index = index :=
  Fin.ext (Nat.mod_eq_of_lt index.isLt)

/-- After all steps around the ring, one is back. -/
@[simp] theorem placeAt_add_size {nonempty : 0 < face.size} (steps : Nat) :
    face.placeAt nonempty (steps + face.size) = face.placeAt nonempty steps :=
  Fin.ext (Nat.add_mod_right steps face.size)

theorem after_placeAt {nonempty : 0 < face.size} (steps : Nat) :
    face.after (face.placeAt nonempty steps) = face.placeAt nonempty (steps + 1) :=
  Fin.ext (Nat.mod_add_mod steps face.size 1)

theorem placeAt_ne {nonempty : 0 < face.size} {steps otherSteps : Nat}
    (fewer : steps < otherSteps) (sameRound : otherSteps < steps + face.size) :
    face.placeAt nonempty steps ≠ face.placeAt nonempty otherSteps := by
  intro same
  have sameRest : steps % face.size = otherSteps % face.size := congrArg Fin.val same
  have noFurther := Nat.sub_mod_eq_zero_of_mod_eq sameRest.symm
  rw [Nat.mod_eq_of_lt (by omega)] at noFurther
  omega

/-- A ring with vertices on both sides of a plane changes sides at two places: one is on the way
from the first vertex to the second, the other on the way back. -/
theorem exists_changes {first second : Fin face.size} (before : first < second)
    (opposite : (face.sidedAt plane first).crosses (face.sidedAt plane second)) :
    ∃ early late, early ≠ late ∧ face.ChangesAt plane early ∧ face.ChangesAt plane late := by
  have nonempty : 0 < face.size := Nat.zero_lt_of_lt first.isLt
  let corners : Nat → SidedVertex := fun steps => face.sidedAt plane (face.placeAt nonempty steps)
  have changes : ∀ steps, ((corners steps).side = .on ∨
      (corners steps).crosses (corners (steps + 1))) →
        face.ChangesAt plane (face.placeAt nonempty steps) := by
    intro steps change
    rw [ChangesAt, crossesAt, after_placeAt]
    exact change
  obtain ⟨early, fromFirst, toSecond, earlyChange⟩ :=
    exists_change corners first (second - first) (by
      rw [Nat.add_sub_cancel' before.le]
      simpa [corners] using opposite)
  obtain ⟨late, fromSecond, toFirst, lateChange⟩ :=
    exists_change corners second (first + face.size - second) (by
      rw [Nat.add_sub_cancel' (by omega), SidedVertex.crosses_comm]
      simpa [corners] using opposite)
  exact ⟨_, _, placeAt_ne (by omega) (by omega), changes early earlyChange,
    changes late lateChange⟩

/-- Such a ring has at least two vertices on the plane or edges that cross it. -/
theorem two_le_changes {first second : Fin face.size} (before : first < second)
    (opposite : (face.sidedAt plane first).crosses (face.sidedAt plane second)) :
    2 ≤ face.sideCount plane .on + face.crossingCount plane := by
  obtain ⟨early, late, different, earlyChange, lateChange⟩ := exists_changes before opposite
  have found : ∀ index, face.ChangesAt plane index → index ∈
      (List.finRange face.size).filter (fun index => (face.sidedAt plane index).side = .on) ++
        (List.finRange face.size).filter (face.crossesAt plane) := by
    intro index change
    rw [List.mem_append, List.mem_filter, List.mem_filter]
    exact change.imp (fun onPlane => ⟨List.mem_finRange _, by simpa using onPlane⟩)
      (fun crosses => ⟨List.mem_finRange _, crosses⟩)
  have distinct : [early, late].Nodup := by simpa using different
  have both := (distinct.subperm (List.cons_subset.mpr
    ⟨found early earlyChange, List.cons_subset.mpr
      ⟨found late lateChange, List.nil_subset _⟩⟩)).length_le
  rwa [List.length_append, ← List.countP_eq_length_filter, ← List.countP_eq_length_filter] at both

theorem exists_sidedAt {side : Side}
    (occurs : (face.vertices.map fun vertex => plane.side vertex.position).contains side) :
    ∃ index, (face.sidedAt plane index).side = side := by
  obtain ⟨vertex, member, isSide⟩ := List.mem_map.mp (List.contains_iff_mem.mp occurs)
  obtain ⟨index, rfl⟩ := List.get_of_mem member
  exact ⟨index, isSide⟩

/-- A face that spans a plane has a vertex strictly on either side of it. -/
theorem exists_opposite (spans : face.placement plane = .spanning) :
    (∃ index, (face.sidedAt plane index).side = .front) ∧
      ∃ index, (face.sidedAt plane index).side = .back := by
  rw [placement, placementOfSides] at spans
  split at spans
  · next hasFront hasBack => exact ⟨exists_sidedAt hasFront, exists_sidedAt hasBack⟩
  · cases spans
  · cases spans
  · split_ifs at spans

/-- Enough vertices are left on either side of a plane that a face spans. -/
theorem three_le_part (spans : face.placement plane = .spanning) :
    3 ≤ face.sideCount plane .front + face.sideCount plane .on + face.crossingCount plane ∧
      3 ≤ face.sideCount plane .back + face.sideCount plane .on + face.crossingCount plane := by
  obtain ⟨⟨ahead, isAhead⟩, behind, isBehind⟩ := exists_opposite spans
  have opposite : (face.sidedAt plane ahead).crosses (face.sidedAt plane behind) :=
    SidedVertex.crosses_iff.mpr (.inl ⟨isAhead, isBehind⟩)
  have changes : 2 ≤ face.sideCount plane .on + face.crossingCount plane := by
    rcases lt_trichotomy ahead behind with before | same | later
    · exact two_le_changes before opposite
    · rw [same, isBehind] at isAhead
      cases isAhead
    · exact two_le_changes later (by rwa [SidedVertex.crosses_comm])
  have frontCount : 0 < face.sideCount plane .front :=
    List.countP_pos_iff.mpr ⟨ahead, List.mem_finRange _, by simpa using isAhead⟩
  have backCount : 0 < face.sideCount plane .back :=
    List.countP_pos_iff.mpr ⟨behind, List.mem_finRange _, by simpa using isBehind⟩
  omega

/-- Without one side, the cut ring has the vertices on the other side, those on the plane and
those that were put in. -/
theorem length_filter_cutRing (plane : Plane) (times : Fin face.size → Float) (other side : Side)
    (strict : ∀ corner : Side, corner ≠ other ↔ corner = side ∨ corner = .on)
    (apart : side ≠ .on) :
    (((face.cutRing plane times).filter fun corner => corner.side ≠ other).map
        SidedVertex.vertex).length =
      face.sideCount plane side + face.sideCount plane .on + face.crossingCount plane := by
  have counted : (List.finRange face.size).countP
      (fun index => (face.sidedAt plane index).side ≠ other) =
        face.sideCount plane side + face.sideCount plane .on := by
    simp only [strict, sideCount]
    induction List.finRange face.size with
    | nil => rfl
    | cons index places ih =>
        simp only [List.countP_cons, ih]
        by_cases here : (face.sidedAt plane index).side = side
        · simp [here, apart]
          omega
        · simp [here]
          omega
  rw [List.length_map, ← List.countP_eq_length_filter,
    countP_cutRing times fun corner => corner ≠ other, counted]
  simp [strict]

theorem length_partVertices {times : Fin face.size → Float}
    (met : ∀ index, face.crossesAt plane index →
      face.meetingAt? plane index = some (times index))
    (other side : Side) (strict : ∀ corner : Side, corner ≠ other ↔ corner = side ∨ corner = .on)
    (apart : side ≠ .on) :
    (partVertices plane other (face.sidedRing plane)).length =
      face.sideCount plane side + face.sideCount plane .on + face.crossingCount plane := by
  have notOn : other ≠ .on := ((strict .on).mpr (.inr rfl)).symm
  rw [partVertices_eq met other notOn, length_filter_cutRing plane times other side strict apart]

/-- On the plane are the vertices that lie there and those that were put in. -/
theorem length_common (times : Fin face.size → Float) :
    (((face.cutRing plane times).filter fun corner => corner.side = .on).map
        SidedVertex.vertex).length =
      face.sideCount plane .on + face.crossingCount plane := by
  rw [List.length_map, ← List.countP_eq_length_filter,
    countP_cutRing times fun corner => corner = .on, sideCount]
  simp

/-- Neither part leaves out what lies on the plane. -/
theorem common_sublist (times : Fin face.size → Float) {other : Side} (strict : other ≠ .on) :
    (((face.cutRing plane times).filter fun corner => corner.side = .on).map
      SidedVertex.vertex).Sublist
        (((face.cutRing plane times).filter fun corner => corner.side ≠ other).map
          SidedVertex.vertex) := by
  refine (List.monotone_filter_right _ fun corner onPlane => ?_).map _
  simp only [decide_eq_true_eq] at onPlane ⊢
  rw [onPlane]
  exact strict.symm

end Counting

section Meeting

/-- A plane that a face spans has a normal. -/
theorem normal_length_of_spanning (spans : face.placement plane = .spanning) :
    1 / 2 ^ 16 ≤ plane.normal.value.length := by
  obtain ⟨⟨index, inFront⟩, _⟩ := exists_opposite spans
  by_contra! short
  have isZero := plane.normal.length_eq_zero short
  obtain ⟨distance, isDistance, near⟩ :=
    Plane.signedDistance_near short.le le_rfl (by norm_num) (face.vertexAt index).position
  have flat : |plane.offset (face.vertexAt index).position.value| ≤ 65536 * 0 := by
    rw [← isZero]
    exact ((face.vertexAt index).position.within_sub plane.point).abs_dot_le plane.normal.value
  have size := Binary64.abs_le_of_near near
  have onPlane : plane.side (face.vertexAt index).position = .on := by
    apply Plane.side_eq_on isDistance
    rw [mul_zero] at flat
    norm_num at size ⊢
    linarith
  change plane.side (face.vertexAt index).position = .front at inFront
  rw [onPlane] at inFront
  cases inFront

/-- The vertex that is put in on an edge stands where the plane is met. -/
theorem exists_partWay_of_met (spans : face.placement plane = .spanning) {index : Fin face.size}
    {time : Float} (met : face.meetingAt? plane index = some time) :
    ∃ part, Binary64.Denotes time part ∧ 0 ≤ part ∧ part ≤ 1 ∧
      |plane.offset ((face.vertexAt index).position.value.along
        (face.vertexAt (face.after index)).position.value part)| ≤
          plane.normal.value.length / 2 ^ 30 ∧
      (face.vertexAt index).PartWay (face.vertexAt (face.after index)) part
        ((face.vertexAt index).between (face.vertexAt (face.after index)) time) := by
  obtain ⟨part, isPart, begun, within, meets⟩ :=
    Plane.crossing?_near le_rfl (normal_length_of_spanning spans) plane.normal.length_le met
  exact ⟨part, isPart, begun, within, meets,
    Vertex.between_partWay _ _ isPart begun within⟩

end Meeting

/-- What a cut makes of a face.  Each part is the cut ring without the vertices strictly on the
other side; those on the plane are common to both, in the same order. -/
structure Parted (face : Face) (plane : Plane) (times : Fin face.size → Float)
    (front back : Face) : Prop where
  frontRing : front.vertices =
    ((face.cutRing plane times).filter fun corner => corner.side ≠ .back).map SidedVertex.vertex
  backRing : back.vertices =
    ((face.cutRing plane times).filter fun corner => corner.side ≠ .front).map
      SidedVertex.vertex
  frontSize : front.size =
    face.sideCount plane .front + face.sideCount plane .on + face.crossingCount plane
  backSize : back.size =
    face.sideCount plane .back + face.sideCount plane .on + face.crossingCount plane
  enough : 3 ≤ front.size ∧ 3 ≤ back.size
  common : ∃ shared : List Vertex,
    shared = ((face.cutRing plane times).filter fun corner => corner.side = .on).map
      SidedVertex.vertex ∧
    shared.length = face.sideCount plane .on + face.crossingCount plane ∧
    shared.Sublist front.vertices ∧ shared.Sublist back.vertices
  /-- What is put in on an edge stands where the plane is met, but for rounding, with the texture
  coordinates from there. -/
  added : ∀ index, face.crossesAt plane index → ∃ part,
    Binary64.Denotes (times index) part ∧ 0 ≤ part ∧ part ≤ 1 ∧
      |plane.offset ((face.vertexAt index).position.value.along
        (face.vertexAt (face.after index)).position.value part)| ≤
          plane.normal.value.length / 2 ^ 30 ∧
      (face.vertexAt index).PartWay (face.vertexAt (face.after index)) part
        ((face.vertexAt index).between (face.vertexAt (face.after index)) (times index))
  paint : front.normal = face.normal ∧ front.surface = face.surface ∧
    back.normal = face.normal ∧ back.surface = face.surface
  points : front.vertices.head?.map Vertex.position = some front.point ∧
    back.vertices.head?.map Vertex.position = some back.point
  /-- With texture coordinates at all vertices of the face, or at none, so it is in the parts. -/
  painted : ∀ given : Bool, (∀ vertex ∈ face.vertices, vertex.uv.isSome = given) →
    (∀ vertex ∈ front.vertices, vertex.uv.isSome = given) ∧
      ∀ vertex ∈ back.vertices, vertex.uv.isSome = given

theorem head_withNormal {vertices : List Vertex} (nonempty : vertices ≠ []) (normal : FixedVector)
    (surface : Surface) :
    vertices.head?.map Vertex.position = some (withNormal vertices normal surface).point := by
  cases vertices with
  | nil => exact absurd rfl nonempty
  | cons first rest => rfl

/-- A face that spans a plane is split, if the plane is met on every edge that crosses it. -/
theorem split_of_spanning {times : Fin face.size → Float}
    (spans : face.placement plane = .spanning)
    (met : ∀ index, face.crossesAt plane index →
      face.meetingAt? plane index = some (times index)) :
    ∃ front back, face.split plane = .ok (front, back) ∧
      face.Parted plane times front back := by
  have frontRing := partVertices_eq met .back (by simp)
  have backRing := partVertices_eq met .front (by simp)
  have frontSize := length_partVertices met .back .front (by rintro (_ | _ | _) <;> simp) (by simp)
  have backSize := length_partVertices met .front .back (by rintro (_ | _ | _) <;> simp) (by simp)
  obtain ⟨frontEnough, backEnough⟩ := three_le_part spans
  rw [← frontSize] at frontEnough
  rw [← backSize] at backEnough
  have split : face.split plane =
      .ok (withNormal (partVertices plane .back (face.sidedRing plane)) face.normal face.surface,
        withNormal (partVertices plane .front (face.sidedRing plane)) face.normal
          face.surface) := by
    rw [Face.split]
    refine if_neg ?_
    simp only [Bool.or_eq_true, decide_eq_true_eq, not_or, Nat.not_lt]
    exact ⟨frontEnough, backEnough⟩
  refine ⟨_, _, split, frontRing, backRing, frontSize, backSize, ⟨frontEnough, backEnough⟩, ?_,
    fun index crosses => exists_partWay_of_met spans (met index crosses),
    ⟨rfl, rfl, rfl, rfl⟩, ⟨head_withNormal ?_ _ _, head_withNormal ?_ _ _⟩, ?_⟩
  · refine ⟨_, rfl, length_common times, ?_, ?_⟩
    · exact frontRing ▸ common_sublist times (by simp)
    · exact backRing ▸ common_sublist times (by simp)
  · exact List.ne_nil_of_length_pos (Nat.zero_lt_of_lt frontEnough)
  · exact List.ne_nil_of_length_pos (Nat.zero_lt_of_lt backEnough)
  · intro given painted
    have ringPainted : ∀ sided ∈ face.sidedRing plane, sided.vertex.uv.isSome = given := by
      intro sided member
      obtain ⟨vertex, isVertex, rfl⟩ := List.mem_map.mp member
      exact painted vertex isVertex
    exact ⟨fun _ => isSome_uv_of_mem_partVertices ringPainted,
      fun _ => isSome_uv_of_mem_partVertices ringPainted⟩

section Example

/-- A textured sail with a corner on the mast and an edge across it that closes the ring. -/
def sail : Face :=
  .withNormal
    [⟨⟨⟨196608⟩, ⟨65536⟩, ⟨0⟩⟩, some ⟨⟨65536⟩, ⟨32768⟩, ⟨0⟩⟩⟩,
      ⟨⟨⟨0⟩, ⟨131072⟩, ⟨0⟩⟩, some ⟨⟨32768⟩, ⟨65536⟩, ⟨0⟩⟩⟩,
      ⟨⟨⟨-65536⟩, ⟨65536⟩, ⟨0⟩⟩, some ⟨⟨0⟩, ⟨32768⟩, ⟨0⟩⟩⟩,
      ⟨⟨⟨-65536⟩, ⟨-65536⟩, ⟨0⟩⟩, some ⟨⟨16384⟩, ⟨0⟩, ⟨0⟩⟩⟩]
    ⟨⟨0⟩, ⟨0⟩, ⟨65536⟩⟩ (.textured 1)

def mast : Plane := ⟨.zero, ⟨⟨65536⟩, ⟨0⟩, ⟨0⟩⟩⟩

/-- A quarter of the way along the edge that closes the ring, with texture coordinates a quarter
of the way from those at its start. -/
def sailCut : Vertex :=
  ⟨⟨⟨0⟩, ⟨-32768⟩, ⟨0⟩⟩, some ⟨⟨28672⟩, ⟨8192⟩, ⟨0⟩⟩⟩

/-- The sail is split into a triangle and a quadrangle, which both end with what was put in. -/
theorem sail_is_parted :
    sail.placement mast = .spanning ∧
      ∃ times : Fin sail.size → Float,
        (∀ index, sail.crossesAt mast index →
          sail.meetingAt? mast index = some (times index)) ∧
        ∃ front back, sail.split mast = .ok (front, back) ∧
          sail.Parted mast times front back ∧
          front.vertices = sail.vertices.take 2 ++ [sailCut] ∧
          back.vertices = sail.vertices.drop 1 ++ [sailCut] := by
  have spans : sail.placement mast = .spanning := by decide +kernel
  have meets : ∀ index, sail.crossesAt mast index → (sail.meetingAt? mast index).isSome := by
    decide +kernel
  let times : Fin sail.size → Float := fun index => (sail.meetingAt? mast index).getD 0
  have met : ∀ index, sail.crossesAt mast index →
      sail.meetingAt? mast index = some (times index) := by
    intro index crosses
    obtain ⟨time, isTime⟩ := Option.isSome_iff_exists.mp (meets index crosses)
    simp only [times, isTime, Option.getD_some]
  obtain ⟨front, back, split, parted⟩ := split_of_spanning spans met
  have rings : (sail.split mast).toOption.map
      (fun parts => (parts.1.vertices, parts.2.vertices)) =
        some (sail.vertices.take 2 ++ [sailCut], sail.vertices.drop 1 ++ [sailCut]) := by
    decide +kernel
  rw [split] at rings
  obtain ⟨frontRing, backRing⟩ := Prod.mk.inj (Option.some.inj rings)
  exact ⟨spans, times, met, front, back, split, parted, frontRing, backRing⟩

end Example

end Face

end PaintOrder
