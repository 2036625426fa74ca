import PaintOrder.Partition.Tree
import PaintOrder.Proofs.Code.VertexTable

/-!
# The order in which positions are numbered

However positions come to a table, one by one, with faces or with a whole tree, the table lists
them in the order in which they came first.  The number of a position is its place in that
list, counted from the base, and stays what it is when more positions come.
-/

namespace PaintOrder.Code.VertexTable

variable {table : VertexTable} {position : FixedVector} {index base : Nat}
  {seen : List FixedVector}

/-- A way to give positions to a table. -/
inductive Operation where
  | insert (position : FixedVector)
  | visit (faces : List Face)

/-- The positions that an operation gives to a table, in order. -/
def Operation.positions : Operation → List FixedVector
  | insert position => [position]
  | visit faces => positionsOf faces

def perform (table : VertexTable) : Operation → VertexTable
  | .insert position => table.insert position
  | .visit faces => table.insertFaces faces

def performAll (table : VertexTable) (operations : List Operation) : VertexTable :=
  operations.foldl perform table

section Orders

theorem perform_eq_foldl (table : VertexTable) (operation : Operation) :
    table.perform operation = operation.positions.foldl insert table := by
  cases operation with
  | insert position => rfl
  | visit faces => exact insertFaces_eq_foldl table faces

theorem performAll_eq_foldl (table : VertexTable) (operations : List Operation) :
    table.performAll operations =
      (operations.flatMap Operation.positions).foldl insert table := by
  have steps : perform = fun table operation => operation.positions.foldl insert table :=
    funext fun table => funext (perform_eq_foldl table)
  rw [performAll, List.foldl_flatMap, steps]

theorem walkTree_insertFaces (table : VertexTable) (tree : Tree) :
    tree.walk insertFaces table = table.insertFaces tree.faces := by
  induction tree generalizing table with
  | leaf faces => rfl
  | split plane front back frontIH backIH =>
      rw [Tree.walk, frontIH, backIH, Tree.faces]
      simp only [insertFaces, List.foldl_append]

/-- Walking a tree numbers the faces of its leaves, those in front first. -/
theorem walk_insertFaces (table : VertexTable) (partition : Partition) :
    partition.walk insertFaces table = table.insertFaces partition.faces := by
  rw [Partition.walk, Partition.faces]
  cases partition.root? with
  | none => rfl
  | some tree => exact walkTree_insertFaces table tree

end Orders

theorem eraseDups_concat (seen : List FixedVector) (position : FixedVector) :
    (seen ++ [position]).eraseDups =
      if position ∈ seen then seen.eraseDups else seen.eraseDups ++ [position] := by
  rw [List.eraseDups_append, List.removeAll, List.filter_singleton]
  by_cases held : position ∈ seen
  · simp [held]
  · simp [held, List.eraseDups_cons]

/-- A table that numbers some positions in the order in which they came first. -/
structure FirstSeen (table : VertexTable) (base : Nat) (seen : List FixedVector) : Prop
    extends numbers : Numbers table base seen where
  positions_eq : table.positions.toList = seen.eraseDups

namespace FirstSeen

theorem empty (base : Nat) : FirstSeen { base := base } base [] where
  numbers := numbers_of_base base
  positions_eq := rfl

theorem insert (first : table.FirstSeen base seen) (position : FixedVector) :
    (table.insert position).FirstSeen base (seen ++ [position]) := by
  refine ⟨first.numbers.insert position, ?_⟩
  rw [eraseDups_concat, ← first.positions_eq]
  cases known : table.index? position with
  | some index =>
      rw [insert_of_known known, if_pos (first.mem_iff.mpr ⟨index, known⟩)]
  | none =>
      have absent : position ∉ seen := by
        rw [first.mem_iff]
        rintro ⟨index, isIndex⟩
        rw [known] at isIndex
        cases isIndex
      rw [positions_insert_of_new known, if_neg absent]

theorem foldl (first : table.FirstSeen base seen) (more : List FixedVector) :
    (more.foldl VertexTable.insert table).FirstSeen base (seen ++ more) :=
  foldl_insert_induction (motive := fun table => FirstSeen table base) insert first more

/-- A number is the one place of its position, counted from the base. -/
theorem index?_eq_some_iff (first : table.FirstSeen base seen) :
    table.index? position = some index ↔
      ∃ place, index = base + place ∧
        ∀ other : Nat, table.positions[other]? = some position ↔ other = place := by
  rw [first.faithful position index, first.base_eq]
  constructor
  · rintro ⟨place, here, rfl⟩
    refine ⟨place, rfl, fun other => ⟨fun there => ?_, fun same => same ▸ here⟩⟩
    rw [← Array.getElem?_toList] at here there
    obtain ⟨inRange, _⟩ := List.getElem?_eq_some_iff.mp there
    exact (List.getElem?_inj inRange first.distinct).mp (there.trans here.symm)
  · rintro ⟨place, rfl, only⟩
    exact ⟨place, (only place).mpr rfl, rfl⟩

end FirstSeen

section Keeping

theorem index?_insert (known : table.index? position = some index) (other : FixedVector) :
    (table.insert other).index? position = some index := by
  cases present : table.index? other with
  | some _ => rwa [insert_of_known present]
  | none =>
      have different : (other == position) = false := by
        rw [beq_eq_false_iff_ne]
        rintro rfl
        rw [present] at known
        cases known
      rw [VertexTable.insert, number, present, index?, Std.HashMap.getElem?_insert, different]
      exact known

theorem index?_foldl (known : table.index? position = some index) (more : List FixedVector) :
    (more.foldl insert table).index? position = some index := by
  induction more generalizing table with
  | nil => exact known
  | cons other rest ih => exact ih (index?_insert known other)

theorem index?_insert_self (table : VertexTable) (position : FixedVector) :
    (table.insert position).index? position = some (table.number position).1 := by
  cases known : table.index? position with
  | some index =>
      rw [insert_of_known known, number, known]
  | none =>
      rw [insert, number, known, index?, Std.HashMap.getElem?_insert_self]

end Keeping

/-- Whatever positions and faces a table is given, it lists the positions where each of them
came first.  Every number is the one place of its position counted from the base, it is the
one that was given when the position came, and it stays the same; it is too large for a word
exactly beyond the greatest word.  A tree that is walked gives its positions leaf by leaf, those
in front of a split before those behind. -/
theorem positions_in_order_of_first_occurrence (base : Nat) (operations : List Operation) :
    let seen := operations.flatMap Operation.positions
    let table := performAll { base := base } operations
    table.positions.toList = seen.eraseDups ∧
      table.finish = base + table.size ∧
      (∀ position index, table.index? position = some index ↔
        ∃ place, index = base + place ∧
          ∀ other : Nat, table.positions[other]? = some position ↔ other = place) ∧
      (∀ position, (table.insert position).index? position =
        some (table.number position).1) ∧
      (∀ more position index, table.index? position = some index →
        (table.performAll more).index? position = some index) ∧
      (∀ position cause, table.word? position = .error cause ↔
        ∃ index, table.index? position = some index ∧ 32767 < index ∧
          cause = .tooManyVertices index) ∧
      ∀ partition : Partition,
        partition.walk insertFaces table = table.insertFaces partition.faces ∧
          (table.insertFaces partition.faces).positions.toList =
            (seen ++ positionsOf partition.faces).eraseDups := by
  intro seen table
  have first : table.FirstSeen base seen := by
    have folded := (FirstSeen.empty base).foldl seen
    rwa [List.nil_append, ← performAll_eq_foldl] at folded
  refine ⟨first.positions_eq, ?_, fun _ _ => first.index?_eq_some_iff,
    index?_insert_self table, ?_, fun _ _ => word?_eq_error, ?_⟩
  · rw [finish, first.base_eq]
  · intro more position index known
    rw [performAll_eq_foldl]
    exact index?_foldl known _
  · intro partition
    refine ⟨walk_insertFaces table partition, ?_⟩
    rw [insertFaces_eq_foldl]
    exact (first.foldl _).positions_eq

end PaintOrder.Code.VertexTable
