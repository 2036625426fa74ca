import Mathlib.Data.List.Dedup
import Std.Data.HashMap.Lemmas
import PaintOrder.Code.VertexTable
import PaintOrder.Proofs.Code.Encoding

/-!
# What vertex tables number

A vertex table numbers every position that it holds by the place of the position, counted
from its base, and numbers nothing else.  The table of some faces holds the positions of their
vertices, each of them once.
-/

namespace PaintOrder.Code.VertexTable

/-- A position has a number exactly if it is among the positions, and the number is its place
counted from the base. -/
def Faithful (table : VertexTable) : Prop :=
  ∀ position index, table.index? position = some index ↔
    ∃ place, table.positions[place]? = some position ∧ index = table.base + place

variable {table : VertexTable} {position : FixedVector}

theorem faithful_of_base (base : Nat) : Faithful { base := base } := by
  intro position index
  simp [index?]

theorem insert_base (table : VertexTable) (position : FixedVector) :
    (table.insert position).base = table.base := by
  rw [insert, number]
  split <;> rfl

theorem insert_of_known {index : Nat} (known : table.index? position = some index) :
    table.insert position = table := by
  rw [insert, number, known]

theorem positions_insert_of_new (new : table.index? position = none) :
    (table.insert position).positions.toList = table.positions.toList ++ [position] := by
  rw [insert, number, new]
  exact Array.toList_push

theorem Faithful.insert (faithful : table.Faithful) (position : FixedVector) :
    (table.insert position).Faithful := by
  rw [VertexTable.insert, number]
  cases known : table.index? position with
  | some index => exact faithful
  | none =>
      intro other index
      have absent : ∀ place : Nat, table.positions[place]? ≠ some position := by
        intro place here
        have numbered := (faithful position _).mpr ⟨place, here, rfl⟩
        rw [known] at numbered
        cases numbered
      simp only [index?, Std.HashMap.getElem?_insert, Array.getElem?_push, finish, size]
      by_cases same : position = other
      · subst same
        simp only [beq_self_eq_true, if_true, Option.some.injEq]
        constructor
        · rintro rfl
          exact ⟨_, if_pos rfl, rfl⟩
        · rintro ⟨place, here, rfl⟩
          split_ifs at here with last
          · rw [last]
          · exact absurd here (absent place)
      · have different : (position == other) = false := by simpa using same
        simp only [different, Bool.false_eq_true, if_false]
        rw [← index?, faithful other index]
        constructor
        · rintro ⟨place, here, rfl⟩
          have inside : place ≠ table.positions.size := by
            rintro rfl
            simp at here
          exact ⟨place, by rw [if_neg inside]; exact here, rfl⟩
        · rintro ⟨place, here, rfl⟩
          split_ifs at here with last
          · exact absurd (Option.some.inj here) same
          · exact ⟨place, here, rfl⟩

theorem Faithful.lt_finish (faithful : table.Faithful) {index : Nat}
    (isIndex : table.index? position = some index) : index < table.finish := by
  obtain ⟨place, here, rfl⟩ := (faithful position index).mp isIndex
  obtain ⟨inRange, _⟩ := Array.getElem?_eq_some_iff.mp here
  rw [finish, size]
  omega

/-- What every new position keeps is kept by a whole list of them. -/
theorem foldl_insert_induction {motive : VertexTable → List FixedVector → Prop}
    (step : ∀ {table seen}, motive table seen → ∀ position,
      motive (table.insert position) (seen ++ [position]))
    {seen : List FixedVector} (start : motive table seen) (more : List FixedVector) :
    motive (more.foldl insert table) (seen ++ more) := by
  induction more generalizing table seen with
  | nil => rwa [List.append_nil]
  | cons position rest ih =>
      have inserted := ih (step start position)
      rwa [List.append_assoc] at inserted

/-- The positions of the vertices of some faces, in order. -/
def positionsOf (faces : List Face) : List FixedVector :=
  faces.flatMap fun face => face.vertices.map Vertex.position

/-- A table holds just the given positions, each of them once, and numbers them from a base. -/
structure Numbers (table : VertexTable) (base : Nat) (positions : List FixedVector) : Prop where
  base_eq : table.base = base
  faithful : table.Faithful
  distinct : table.positions.toList.Nodup
  same : ∀ position, position ∈ table.positions.toList ↔ position ∈ positions

namespace Numbers

variable {base : Nat} {positions : List FixedVector}

theorem mem_iff (numbers : table.Numbers base positions) :
    position ∈ positions ↔ ∃ index, table.index? position = some index := by
  rw [← numbers.same, List.mem_iff_getElem?]
  constructor
  · rintro ⟨place, here⟩
    rw [Array.getElem?_toList] at here
    exact ⟨_, (numbers.faithful position _).mpr ⟨place, here, rfl⟩⟩
  · rintro ⟨index, isIndex⟩
    obtain ⟨place, here, _⟩ := (numbers.faithful position index).mp isIndex
    exact ⟨place, by rwa [Array.getElem?_toList]⟩

theorem insert (numbers : table.Numbers base positions) (position : FixedVector) :
    (table.insert position).Numbers base (positions ++ [position]) := by
  have sameBase := (insert_base table position).trans numbers.base_eq
  have faithful := numbers.faithful.insert position
  cases known : table.index? position with
  | some index =>
      have held : position ∈ positions := numbers.mem_iff.mpr ⟨index, known⟩
      rw [insert_of_known known]
      refine ⟨numbers.base_eq, numbers.faithful, numbers.distinct, ?_⟩
      intro other
      rw [numbers.same, List.mem_append, List.mem_singleton]
      exact ⟨.inl, fun either => either.elim id fun isSame => isSame ▸ held⟩
  | none =>
      have absent : position ∉ positions := by
        intro held
        obtain ⟨index, isIndex⟩ := numbers.mem_iff.mp held
        rw [known] at isIndex
        cases isIndex
      have pushed := positions_insert_of_new known
      refine ⟨sameBase, faithful, ?_, ?_⟩
      · rw [pushed, ← List.concat_eq_append]
        rw [← numbers.same] at absent
        exact numbers.distinct.concat absent
      · intro other
        rw [pushed, List.mem_append, List.mem_append, numbers.same]

theorem foldl (numbers : table.Numbers base positions) (more : List FixedVector) :
    (more.foldl VertexTable.insert table).Numbers base (positions ++ more) :=
  foldl_insert_induction (motive := fun table => Numbers table base) insert numbers more

/-- There are as many numbers as different positions. -/
theorem size_eq (numbers : table.Numbers base positions) : table.size = positions.dedup.length := by
  have perm : table.positions.toList.Perm positions.dedup :=
    (List.perm_ext_iff_of_nodup numbers.distinct (List.nodup_dedup _)).mpr fun position => by
      rw [numbers.same, List.mem_dedup]
  exact perm.length_eq

end Numbers

theorem numbers_of_base (base : Nat) : Numbers { base := base } base [] :=
  ⟨rfl, faithful_of_base base, List.nodup_nil, by simp⟩

/-- Numbering some faces is numbering the positions of their vertices in order. -/
theorem insertFaces_eq_foldl (table : VertexTable) (faces : List Face) :
    insertFaces table faces = (positionsOf faces).foldl insert table := by
  rw [insertFaces, positionsOf, List.foldl_flatMap]
  simp only [List.foldl_map]

/-- The table of some faces numbers the positions of their vertices. -/
theorem insertFaces_numbers (base : Nat) (faces : List Face) :
    (insertFaces { base := base } faces).Numbers base (positionsOf faces) := by
  rw [insertFaces_eq_foldl]
  exact (numbers_of_base base).foldl _

theorem word?_eq_some {word : Int16} :
    table.word? position = .ok (some word) ↔
      ∃ index, table.index? position = some index ∧ index ≤ maxWord ∧
        word = numberWord index := by
  rw [word?]
  cases table.index? position with
  | none => simp
  | some index =>
      by_cases fits : index ≤ maxWord
      · simp [signedWord?_eq_some fits, fits, eq_comm]
      · simp [signedWord?_eq_none (Nat.lt_of_not_le fits), fits]

theorem word?_eq_error {cause : CapacityError} :
    table.word? position = .error cause ↔
      ∃ index, table.index? position = some index ∧ maxWord < index ∧
        cause = .tooManyVertices index := by
  rw [word?]
  cases table.index? position with
  | none => simp
  | some index =>
      by_cases fits : index ≤ maxWord
      · simp [signedWord?_eq_some fits, Nat.not_lt_of_le fits]
      · simp [signedWord?_eq_none (Nat.lt_of_not_le fits), Nat.lt_of_not_le fits, eq_comm]

end PaintOrder.Code.VertexTable
