import PaintOrder.Proofs.Geometry.Split

/-!
# Clean parts

The parts of a face that spans a plane ought not to span the plane again.  Their vertices are
those of the face on one side, those on the plane, and the ones that the cut adds.  So a part is
clean as long as none of the added vertices is strictly on the other side.  They are rounded to
coordinates, which takes them off the plane by no more than half a step times the length of the
normal, and for normals that are not too long the tolerance covers that.
-/

namespace PaintOrder.Face

variable {face front back : Face} {plane : Plane}

/-- The vertices that a cut adds on the edges that cross the plane. -/
def addedVertices (face : Face) (plane : Plane) : List Vertex :=
  (ringEdges (face.sidedRing plane)).filterMap fun edge => cutVertex? plane edge.1 edge.2

theorem mem_vertices_iff {vertex : Vertex} :
    vertex ∈ face.vertices ↔ ∃ index, face.vertexAt index = vertex :=
  List.mem_iff_get

/-- A part has the vertices that are not on the other side and those that the cut adds. -/
theorem mem_partVertices_iff {other : Side} {vertex : Vertex} :
    vertex ∈ partVertices plane other (face.sidedRing plane) ↔
      (vertex ∈ face.vertices ∧ plane.side vertex.position ≠ other) ∨
        vertex ∈ face.addedVertices plane := by
  unfold partVertices addedVertices
  rw [List.mem_flatMap, List.mem_filterMap, mem_vertices_iff]
  simp only [ringEdges_sidedRing, List.mem_map, List.mem_finRange, true_and, List.mem_append,
    Option.mem_toList]
  constructor
  · rintro ⟨_, ⟨index, rfl⟩, kept | added⟩
    · left
      split_ifs at kept with beyond
      · cases kept
      · obtain rfl := List.mem_singleton.mp kept
        exact ⟨⟨index, rfl⟩, beyond⟩
    · exact .inr ⟨_, ⟨index, rfl⟩, added⟩
  · rintro (⟨⟨index, rfl⟩, kept⟩ | ⟨_, ⟨index, rfl⟩, added⟩)
    · refine ⟨_, ⟨index, rfl⟩, .inl ?_⟩
      dsimp only
      rw [if_neg (show (face.sidedAt plane index).side ≠ other from kept)]
      exact List.mem_singleton_self _
    · exact ⟨_, ⟨index, rfl⟩, .inr added⟩

theorem vertexAt_mem_partVertices {other : Side} {index : Fin face.size}
    (kept : (face.sidedAt plane index).side ≠ other) :
    face.vertexAt index ∈ partVertices plane other (face.sidedRing plane) :=
  mem_partVertices_iff.mpr (.inl ⟨mem_vertices_iff.mpr ⟨index, rfl⟩, kept⟩)

/-- Only an added vertex of a part can be on the other side. -/
theorem forall_mem_partVertices_iff {other : Side} :
    (∀ vertex ∈ partVertices plane other (face.sidedRing plane),
        plane.side vertex.position ≠ other) ↔
      ∀ vertex ∈ face.addedVertices plane, plane.side vertex.position ≠ other := by
  constructor
  · intro clean vertex added
    exact clean vertex (mem_partVertices_iff.mpr (.inr added))
  · intro clean vertex member
    rcases mem_partVertices_iff.mp member with ⟨_, kept⟩ | added
    · exact kept
    · exact clean vertex added

theorem vertices_of_split (split : face.split plane = .ok (front, back)) :
    front.vertices = partVertices plane .back (face.sidedRing plane) ∧
      back.vertices = partVertices plane .front (face.sidedRing plane) := by
  unfold Face.split at split
  dsimp only at split
  split_ifs at split
  cases split
  exact ⟨rfl, rfl⟩

theorem contains_side_iff (face : Face) (plane : Plane) (side : Side) :
    (face.vertices.map fun vertex => plane.side vertex.position).contains side ↔
      ∃ vertex ∈ face.vertices, plane.side vertex.position = side := by
  rw [List.contains_iff_mem, List.mem_map]

theorem contains_side_eq_false_iff (face : Face) (plane : Plane) (side : Side) :
    (face.vertices.map fun vertex => plane.side vertex.position).contains side = false ↔
      ∀ vertex ∈ face.vertices, plane.side vertex.position ≠ side := by
  rw [← Bool.not_eq_true, contains_side_iff]
  push Not
  rfl

/-- A face with a vertex strictly in front is in front unless there is one strictly behind. -/
theorem placement_eq_front_iff
    (ahead : ∃ vertex ∈ face.vertices, plane.side vertex.position = .front) :
    face.placement plane = .front ↔
      ∀ vertex ∈ face.vertices, plane.side vertex.position ≠ .back := by
  rw [← contains_side_eq_false_iff]
  unfold placement placementOfSides
  rw [(contains_side_iff face plane .front).mpr ahead]
  cases (face.vertices.map fun vertex => plane.side vertex.position).contains .back <;> simp

/-- A face with a vertex strictly behind is behind unless there is one strictly in front. -/
theorem placement_eq_back_iff
    (behind : ∃ vertex ∈ face.vertices, plane.side vertex.position = .back) :
    face.placement plane = .back ↔
      ∀ vertex ∈ face.vertices, plane.side vertex.position ≠ .front := by
  rw [← contains_side_eq_false_iff]
  unfold placement placementOfSides
  rw [(contains_side_iff face plane .back).mpr behind]
  cases (face.vertices.map fun vertex => plane.side vertex.position).contains .front <;> simp

/-- An added vertex lies on an edge, where the plane is met. -/
theorem met_of_mem_addedVertices {vertex : Vertex} (added : vertex ∈ face.addedVertices plane) :
    ∃ start finish : Vertex, ∃ time,
      plane.crossing? start.position.toFloat finish.position.toFloat = some time ∧
        vertex = start.between finish time := by
  obtain ⟨⟨current, next⟩, _, isCut⟩ := List.mem_filterMap.mp added
  unfold cutVertex? at isCut
  split_ifs at isCut
  obtain ⟨time, met, rfl⟩ := Option.map_eq_some_iff.mp isCut
  exact ⟨current.vertex, next.vertex, time, met, rfl⟩

/-- What a cut adds is off the plane by half a step times the length of the normal. -/
theorem addedVertices_near (spans : face.placement plane = .spanning) {vertex : Vertex}
    (added : vertex ∈ face.addedVertices plane) :
    ∃ distance, Binary64.Denotes (plane.signedDistance vertex.position.toFloat) distance ∧
      |distance| ≤ plane.normal.value.length * (1 / 2 ^ 17 + 1 / 2 ^ 29) := by
  obtain ⟨start, finish, time, met, rfl⟩ := met_of_mem_addedVertices added
  exact Plane.signedDistance_between_near le_rfl (normal_length_of_spanning spans)
    plane.normal.length_le met

theorem addedVertices_side (short : plane.normal.value.length ≤ 13) {vertex : Vertex}
    (added : vertex ∈ face.addedVertices plane) : plane.side vertex.position = .on := by
  obtain ⟨start, finish, time, met, rfl⟩ := met_of_mem_addedVertices added
  exact Plane.side_between_eq_on short met

theorem front_placement_iff (spans : face.placement plane = .spanning)
    (split : face.split plane = .ok (front, back)) :
    front.placement plane = .front ↔
      ∀ vertex ∈ face.addedVertices plane, plane.side vertex.position ≠ .back := by
  obtain ⟨⟨ahead, isAhead⟩, _⟩ := exists_opposite spans
  have kept : face.vertexAt ahead ∈ front.vertices := by
    rw [(vertices_of_split split).1]
    apply vertexAt_mem_partVertices
    rw [isAhead]
    simp
  rw [placement_eq_front_iff ⟨_, kept, isAhead⟩, (vertices_of_split split).1,
    forall_mem_partVertices_iff]

theorem back_placement_iff (spans : face.placement plane = .spanning)
    (split : face.split plane = .ok (front, back)) :
    back.placement plane = .back ↔
      ∀ vertex ∈ face.addedVertices plane, plane.side vertex.position ≠ .front := by
  obtain ⟨_, behind, isBehind⟩ := exists_opposite spans
  have kept : face.vertexAt behind ∈ back.vertices := by
    rw [(vertices_of_split split).2]
    apply vertexAt_mem_partVertices
    rw [isBehind]
    simp
  rw [placement_eq_back_iff ⟨_, kept, isBehind⟩, (vertices_of_split split).2,
    forall_mem_partVertices_iff]

/-- The parts of a face that spans a plane.  What the cut adds is off the plane by no more than
half a step times the length of the normal, and the parts are clean, each on its own side,
exactly if nothing that was added counts as being on the other side.  With a normal of up to
thirteen units, counted along the axes, nothing does. -/
theorem split_parts_are_clean (spans : face.placement plane = .spanning)
    (split : face.split plane = .ok (front, back)) :
    (∀ vertex ∈ face.addedVertices plane, ∃ distance,
      Binary64.Denotes (plane.signedDistance vertex.position.toFloat) distance ∧
        |distance| ≤ plane.normal.value.length * (1 / 2 ^ 17 + 1 / 2 ^ 29)) ∧
    (front.placement plane = .front ↔
      ∀ vertex ∈ face.addedVertices plane, plane.side vertex.position ≠ .back) ∧
    (back.placement plane = .back ↔
      ∀ vertex ∈ face.addedVertices plane, plane.side vertex.position ≠ .front) ∧
    (plane.normal.value.length ≤ 13 →
      front.placement plane = .front ∧ back.placement plane = .back) := by
  have frontClean := front_placement_iff spans split
  have backClean := back_placement_iff spans split
  refine ⟨fun vertex => addedVertices_near spans, frontClean, backClean, ?_⟩
  intro short
  rw [frontClean, backClean]
  constructor
  · intro vertex added
    rw [addedVertices_side short added]
    simp
  · intro vertex added
    rw [addedVertices_side short added]
    simp

section Example

/-- A plane that cuts the sail aslant, where no edge meets it at whole coordinates. -/
def rakedMast : Plane := ⟨.zero, ⟨⟨39322⟩, ⟨52429⟩, ⟨0⟩⟩⟩

theorem rakedMast_length_le : rakedMast.normal.value.length ≤ 13 := by
  decide +kernel

/-- The raked mast is met at a position that is rounded, and the parts of the sail are clean. -/
theorem sail_parts_are_clean :
    sail.placement rakedMast = .spanning ∧
      ∃ front back, sail.split rakedMast = .ok (front, back) ∧
        front.placement rakedMast = .front ∧ back.placement rakedMast = .back := by
  have spans : sail.placement rakedMast = .spanning := by decide +kernel
  have isSplit : (sail.split rakedMast).toOption.isSome := by decide +kernel
  refine ⟨spans, ?_⟩
  cases split : sail.split rakedMast with
  | error cause =>
      rw [split] at isSplit
      cases isSplit
  | ok parts =>
      obtain ⟨front, back⟩ := parts
      exact ⟨front, back, rfl, (split_parts_are_clean spans split).2.2.2 rakedMast_length_le⟩

/-- A sheet of which one edge meets a plane half a step away from all coordinates. -/
def diagonalSheet : Face :=
  .withNormal [⟨⟨⟨-65536⟩, ⟨-65536⟩, ⟨0⟩⟩, none⟩, ⟨⟨⟨65537⟩, ⟨65537⟩, ⟨0⟩⟩, none⟩,
    ⟨⟨⟨-65536⟩, ⟨-65536⟩, ⟨65536⟩⟩, none⟩] ⟨⟨65536⟩, ⟨-65536⟩, ⟨0⟩⟩ (.flat 1)

/-- A plane whose normal is seven units long in two directions. -/
def longPlane : Plane := ⟨⟨⟨1⟩, ⟨0⟩, ⟨0⟩⟩, ⟨⟨458752⟩, ⟨458752⟩, ⟨0⟩⟩⟩

/-- With a normal of fourteen units a valid face is cut into parts of which one still spans the
plane. -/
theorem diagonalSheet_part_spans :
    diagonalSheet.validate 0 = .ok () ∧ diagonalSheet.placement longPlane = .spanning ∧
      ∃ front back, diagonalSheet.split longPlane = .ok (front, back) ∧
        front.placement longPlane = .front ∧ back.placement longPlane = .spanning := by
  refine ⟨by decide +kernel, by decide +kernel, ?_⟩
  use .withNormal [⟨⟨⟨1⟩, ⟨1⟩, ⟨0⟩⟩, none⟩, ⟨⟨⟨65537⟩, ⟨65537⟩, ⟨0⟩⟩, none⟩,
    ⟨⟨⟨1⟩, ⟨1⟩, ⟨32768⟩⟩, none⟩] ⟨⟨65536⟩, ⟨-65536⟩, ⟨0⟩⟩ (.flat 1)
  use .withNormal [⟨⟨⟨-65536⟩, ⟨-65536⟩, ⟨0⟩⟩, none⟩, ⟨⟨⟨1⟩, ⟨1⟩, ⟨0⟩⟩, none⟩,
    ⟨⟨⟨1⟩, ⟨1⟩, ⟨32768⟩⟩, none⟩, ⟨⟨⟨-65536⟩, ⟨-65536⟩, ⟨65536⟩⟩, none⟩]
    ⟨⟨65536⟩, ⟨-65536⟩, ⟨0⟩⟩ (.flat 1)
  decide +kernel

end Example

end PaintOrder.Face
