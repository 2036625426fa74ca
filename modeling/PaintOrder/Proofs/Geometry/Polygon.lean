import Mathlib.Tactic.SplitIfs
import PaintOrder.Geometry.Cut

/-!
# Proper polygons

A face that passes its check is a proper polygon: it has at least three vertices and a
normal, and texture coordinates at all of its vertices or at none, as its surface wants.
A cut along a plane makes two proper polygons of one.
-/

namespace PaintOrder

/-- An edge of a ring joins two elements of it. -/
theorem mem_of_mem_ringEdges {α : Type} {ring : List α} {edge : α × α}
    (member : edge ∈ ringEdges ring) : edge.1 ∈ ring ∧ edge.2 ∈ ring := by
  obtain ⟨current, next⟩ := edge
  obtain ⟨isCurrent, isNext⟩ := List.of_mem_zip member
  refine ⟨isCurrent, ?_⟩
  rcases List.mem_append.mp isNext with later | first
  · exact List.mem_of_mem_tail later
  · exact List.mem_of_mem_take first

theorem Vertex.isSome_uv_between (start finish : Vertex) (time : Float) :
    (start.between finish time).uv.isSome = (start.uv.isSome && finish.uv.isSome) := by
  rw [between]
  cases start.uv <;> cases finish.uv <;> rfl

namespace Face

/-- A face has enough vertices to be seen and is painted all over. -/
structure Drawable (face : Face) : Prop where
  enough : 3 ≤ face.size
  painted : ∀ vertex ∈ face.vertices, vertex.uv.isSome = face.isTextured

/-- What the check of a face asks for. -/
structure Proper (face : Face) : Prop extends Drawable face where
  directed : face.normal.isZero = false

theorem Drawable.validate_eq {face : Face} (drawable : face.Drawable) (index : Nat) :
    face.validate index =
      if face.normal.isZero then .error (.degenerateFace index) else .ok () := by
  have painted : (face.vertices.any fun vertex => vertex.uv.isSome != face.isTextured) = false := by
    simpa using drawable.painted
  rw [validate, if_neg (Nat.not_lt_of_le drawable.enough), painted]
  rfl

theorem validate_eq_ok_iff {face : Face} {index : Nat} :
    face.validate index = .ok () ↔ face.Proper := by
  constructor
  · intro valid
    rw [validate] at valid
    split_ifs at valid with few flat stray
    exact ⟨⟨by omega, by simpa using stray⟩, by simpa using flat⟩
  · intro proper
    rw [proper.validate_eq, proper.directed]
    rfl

/-- A vertex of a part is a vertex of the face or lies on one of its edges. -/
theorem mem_partVertices {plane : Plane} {other : Side} {ring : List SidedVertex}
    {vertex : Vertex} (member : vertex ∈ partVertices plane other ring) :
    (∃ sided ∈ ring, vertex = sided.vertex) ∨
      ∃ current ∈ ring, ∃ next ∈ ring, ∃ time,
        vertex = current.vertex.between next.vertex time := by
  rw [partVertices] at member
  obtain ⟨⟨current, next⟩, isEdge, added⟩ := List.mem_flatMap.mp member
  obtain ⟨isCurrent, isNext⟩ := mem_of_mem_ringEdges isEdge
  rcases List.mem_append.mp added with kept | cut
  · left
    refine ⟨current, isCurrent, ?_⟩
    split_ifs at kept
    · cases kept
    · exact List.mem_singleton.mp kept
  · right
    rw [Option.mem_toList, cutVertex?] at cut
    split_ifs at cut
    obtain ⟨time, _, rfl⟩ := Option.map_eq_some_iff.mp cut
    exact ⟨current, isCurrent, next, isNext, time, rfl⟩

/-- Where all vertices of a ring have texture coordinates, or none of them has, the same is true
of a part. -/
theorem isSome_uv_of_mem_partVertices {plane : Plane} {other : Side} {ring : List SidedVertex}
    {given : Bool} (painted : ∀ sided ∈ ring, sided.vertex.uv.isSome = given) {vertex : Vertex}
    (member : vertex ∈ partVertices plane other ring) : vertex.uv.isSome = given := by
  rcases mem_partVertices member with
    ⟨sided, isSided, rfl⟩ | ⟨current, isCurrent, next, isNext, time, rfl⟩
  · exact painted sided isSided
  · rw [Vertex.isSome_uv_between, painted current isCurrent, painted next isNext, Bool.and_self]

/-- Both parts of a proper polygon are proper polygons. -/
theorem Proper.split {face front back : Face} {plane : Plane} (proper : face.Proper)
    (split : face.split plane = .ok (front, back)) : front.Proper ∧ back.Proper := by
  have painted : ∀ sided ∈ face.vertices.map fun vertex =>
      (⟨vertex, plane.side vertex.position⟩ : SidedVertex),
        sided.vertex.uv.isSome = face.isTextured := by
    intro sided isSided
    obtain ⟨original, isOriginal, rfl⟩ := List.mem_map.mp isSided
    exact proper.painted original isOriginal
  simp only [Face.split, Bool.or_eq_true, decide_eq_true_eq] at split
  split_ifs at split with few
  obtain ⟨frontEnough, backEnough⟩ := not_or.mp few
  cases split
  exact ⟨⟨⟨Nat.le_of_not_lt frontEnough, fun _ => isSome_uv_of_mem_partVertices painted⟩,
      proper.directed⟩,
    ⟨⟨Nat.le_of_not_lt backEnough, fun _ => isSome_uv_of_mem_partVertices painted⟩,
      proper.directed⟩⟩

end Face

end PaintOrder
