import PaintOrder.Proofs.Code.Sizes

/-!
# Writing a tree only appends

Whether a tree can be written is decided by the tree and the table of its vertices alone.  The
jumps of its sorts are filled in only after both branches are there, but they are distances,
and they stand in bytes that the tree itself has added.  So the bytes of a tree are the same
behind any code, and code that is already there stays as it is, even if writing the tree fails
in the middle.
-/

namespace PaintOrder

open Code

/-- A face that can be written with a table: it passes its check, its vertices can be counted
by a word, and each of them has a number that fits into a word. -/
structure Face.Encodable (table : VertexTable) (face : Face) : Prop where
  valid : ∀ label, face.validate label = .ok ()
  countable : face.size ≤ maxWord
  numbered : ∀ vertex ∈ face.vertices, Emission.Numbered table vertex

/-- A tree that can be written with a table: its faces can be written, its splits have a
direction, and the jump over the front of every split fits into a word. -/
def Tree.Encodable (table : VertexTable) : Tree → Prop
  | leaf faces => ∀ face ∈ faces, face.Encodable table
  | split plane front back =>
      plane.isDegenerate = false ∧ sortSize + stopSize + front.codeSize ≤ maxWord ∧
        front.Encodable table ∧ back.Encodable table

namespace Code.Emission

variable {table : VertexTable} {emitter result : Emitter}

section Appending

/-- Whether or not it succeeds, a step leaves what was written before as it is. -/
def Appends {α : Type} (step : Emission α) : Prop :=
  ∀ emitter, ∃ bytes, leftover (step.run emitter) = emitter.append bytes

/-- A step that writes nothing appends nothing. -/
theorem appends_of_unchanged {α : Type} {step : Emission α}
    (unchanged : ∀ emitter, leftover (step.run emitter) = emitter) : Appends step := by
  intro emitter
  use []
  rw [unchanged, Emitter.append_nil]

theorem Appends.andThen {α β : Type} {step : Emission α} {next : α → Emission β}
    (stepAppends : Appends step) (nextAppends : ∀ value, Appends (next value)) :
    Appends (step >>= next) := by
  intro emitter
  obtain ⟨bytes, left⟩ := stepAppends emitter
  cases ran : step.run emitter with
  | ok value between =>
      rw [ran] at left
      obtain rfl : between = emitter.append bytes := left
      obtain ⟨more, leftAfter⟩ := nextAppends value (emitter.append bytes)
      use bytes ++ more
      rw [run_bind_of_ok ran, leftAfter, Emitter.append_append]
  | error cause between =>
      rw [ran] at left
      use bytes
      rw [run_bind_of_error ran]
      exact left

theorem pure_appends {α : Type} (value : α) : Appends (pure value) :=
  appends_of_unchanged fun _ => rfl

theorem throw_appends {α : Type} (cause : Error) : Appends (throw cause : Emission α) :=
  appends_of_unchanged fun _ => rfl

theorem lift_appends {α : Type} (check : Except Error α) :
    Appends (liftM check : Emission α) := by
  apply appends_of_unchanged
  intro emitter
  cases check <;> rfl

theorem narrow_appends (number : Int) (overflow : CapacityError) :
    Appends (narrow number overflow) := by
  unfold narrow
  cases signedWord? number with
  | none => exact throw_appends _
  | some word => exact pure_appends word

theorem write_appends (bytes : List UInt8) : Appends (write bytes) :=
  fun _ => ⟨bytes, rfl⟩

theorem forM_appends_all {α : Type} {step : α → Emission Unit}
    (each : ∀ element, Appends (step element)) (elements : List α) :
    Appends (elements.forM step) := by
  induction elements with
  | nil => exact pure_appends ()
  | cons element rest ih => exact (each element).andThen fun _ => ih

theorem writeIndex_appends (table : VertexTable) (vertex : Vertex) :
    Appends (writeIndex table vertex) := by
  unfold writeIndex
  apply (lift_appends ((table.word? vertex.position).mapError .capacity)).andThen
  intro found
  cases found with
  | none => exact throw_appends _
  | some word => exact write_appends _

theorem writePolygon_appends (table : VertexTable) (face : Face) :
    Appends (writePolygon table face) := by
  unfold writePolygon
  apply (narrow_appends _ _).andThen
  intro count
  apply (write_appends _).andThen
  intro _
  apply (forM_appends_all (writeIndex_appends table) face.vertices).andThen
  intro _
  have coordinates : ∀ bytes, Appends (if face.isTextured then write bytes else pure ()) := by
    intro bytes
    split_ifs
    · exact write_appends bytes
    · exact pure_appends ()
  by_cases even : face.size % 2 = 0
  · rw [if_pos even]
    exact (write_appends _).andThen fun _ => coordinates _
  · rw [if_neg even]
    exact coordinates _

theorem writeLeafFace_appends (table : VertexTable) (face : Face) (index : Nat) :
    Appends (writeLeafFace table face index) :=
  (lift_appends ((face.validate index).mapError .structural)).andThen
    fun _ => writePolygon_appends table face

/-- A jump is filled in, or it does not fit and nothing is changed. -/
theorem patch_cases (instruction field target : Nat) (emitter : Emitter) :
    (∃ cause, (patch instruction field target).run emitter = .error cause emitter) ∨
      ∃ word, (patch instruction field target).run emitter =
        .ok () (overwrite emitter (instruction + field) word) := by
  unfold patch narrow
  dsimp only
  cases signedWord? ((target : Int) - instruction) with
  | none => exact .inl ⟨_, rfl⟩
  | some word => exact .inr ⟨word, rfl⟩

/-- Filling in the jumps of a sort changes nothing in front of the sort. -/
theorem patch_sort_leftover (emitter : Emitter) (plane : Plane) (behind : List UInt8)
    (backStart frontStart : Nat) :
    ∃ bytes, leftover ((do
        patch emitter.code.size sortBackField backStart
        patch emitter.code.size sortFrontField frontStart : Emission Unit).run
      (emitter.append (sortBytes plane 0 0 ++ behind))) = emitter.append bytes := by
  rcases patch_cases emitter.code.size sortBackField backStart
      (emitter.append (sortBytes plane 0 0 ++ behind)) with ⟨cause, failed⟩ | ⟨back, patched⟩
  · rw [run_bind_of_error failed]
    exact ⟨_, rfl⟩
  · rw [overwrite_sortBack] at patched
    rw [run_bind_of_ok patched]
    rcases patch_cases emitter.code.size sortFrontField frontStart
        (emitter.append (sortBytes plane back 0 ++ behind)) with
      ⟨cause, failed⟩ | ⟨front, patched⟩
    · rw [failed]
      exact ⟨_, rfl⟩
    · rw [overwrite_sortFront] at patched
      rw [patched]
      exact ⟨_, rfl⟩

theorem writeBranches_appends (plane : Plane) {writeFront writeBack : Emission Unit}
    (frontAppends : Appends writeFront) (backAppends : Appends writeBack) :
    Appends (writeBranches plane writeFront writeBack) := by
  intro emitter
  have sorted : (writeSort plane).run emitter =
      .ok emitter.code.size (emitter.append (sortBytes plane 0 0)) := rfl
  have stopped : writeStop.run (emitter.append (sortBytes plane 0 0)) =
      .ok () (emitter.append (sortBytes plane 0 0 ++ stopBytes)) := by
    rw [← Emitter.append_append]
    rfl
  have placed : ∀ between : Emitter, position.run between = .ok between.code.size between :=
    fun _ => rfl
  unfold writeBranches
  rw [run_bind_of_ok sorted, run_bind_of_ok stopped, run_bind_of_ok (placed _)]
  obtain ⟨front, frontLeft⟩ := frontAppends (emitter.append (sortBytes plane 0 0 ++ stopBytes))
  rw [Emitter.append_append] at frontLeft
  cases frontRan : writeFront.run (emitter.append (sortBytes plane 0 0 ++ stopBytes)) with
  | error cause afterFront =>
      rw [frontRan] at frontLeft
      rw [run_bind_of_error frontRan]
      exact ⟨_, frontLeft⟩
  | ok nothing afterFront =>
      rw [frontRan] at frontLeft
      obtain rfl : afterFront = _ := frontLeft
      rw [run_bind_of_ok frontRan, run_bind_of_ok (placed _)]
      obtain ⟨back, backLeft⟩ :=
        backAppends (emitter.append (sortBytes plane 0 0 ++ stopBytes ++ front))
      rw [Emitter.append_append] at backLeft
      cases backRan : writeBack.run
          (emitter.append (sortBytes plane 0 0 ++ stopBytes ++ front)) with
      | error cause afterBack =>
          rw [backRan] at backLeft
          rw [run_bind_of_error backRan]
          exact ⟨_, backLeft⟩
      | ok nothing afterBack =>
          rw [backRan] at backLeft
          obtain rfl : afterBack = _ := backLeft
          rw [run_bind_of_ok backRan]
          simp only [List.append_assoc]
          exact patch_sort_leftover emitter plane _ _ _

theorem writeTree_appends (table : VertexTable) (tree : Tree) :
    Appends (writeTree table tree) := by
  induction tree with
  | leaf faces =>
      unfold writeTree
      apply (forM_appends_all (fun entry : Face × Nat =>
        writeLeafFace_appends table entry.1 entry.2) faces.zipIdx).andThen
      intro _
      exact write_appends _
  | split plane front back frontIH backIH =>
      unfold writeTree
      split_ifs with degenerate
      · exact (throw_appends _).andThen fun _ => writeBranches_appends plane frontIH backIH
      · exact writeBranches_appends plane frontIH backIH

end Appending

section Encoding

theorem encodable_of_writeLeafFace {face : Face} {index : Nat}
    (ran : (writeLeafFace table face index).run emitter = .ok () result) :
    face.Encodable table := by
  unfold writeLeafFace at ran
  obtain ⟨_, _, checked, wrote⟩ := run_bind_eq_ok.mp ran
  obtain ⟨valid, rfl⟩ := lift_structural_eq_ok.mp checked
  obtain ⟨countable, numbered, _⟩ := writePolygon_eq_ok wrote
  have proper := Face.validate_eq_ok_iff.mp valid
  exact ⟨fun _ => Face.validate_eq_ok_iff.mpr proper, countable, numbered⟩

/-- A face that can be written is written as its polygon, wherever it stands in its leaf. -/
theorem writeLeafFace_run {face : Face} (encodable : face.Encodable table) (index : Nat)
    (emitter : Emitter) :
    (writeLeafFace table face index).run emitter =
      .ok () (emitter.append (polygonOf table face).bytes) := by
  obtain ⟨result, wrote⟩ := exists_writePolygon encodable.countable encodable.numbered emitter
  have checked : (liftM (face.validate index) : Emission Unit).run emitter = .ok () emitter :=
    lift_structural_eq_ok.mpr ⟨encodable.valid index, rfl⟩
  have ran : (writeLeafFace table face index).run emitter = .ok () result :=
    run_bind_eq_ok.mpr ⟨(), emitter, checked, wrote⟩
  obtain ⟨_, rfl⟩ := writeLeafFace_eq_ok ran
  exact ran

/-- Two branches that are written as some bytes are written behind their sort if the jump to
the back one fits. -/
theorem writeBranches_run (plane : Plane) {writeFront writeBack : Emission Unit}
    {front back : List UInt8}
    (frontRuns : ∀ emitter : Emitter, writeFront.run emitter = .ok () (emitter.append front))
    (backRuns : ∀ emitter : Emitter, writeBack.run emitter = .ok () (emitter.append back))
    (fits : Assembly.frontJump + front.length ≤ maxWord) (emitter : Emitter) :
    ∃ result, (writeBranches plane writeFront writeBack).run emitter = .ok () result := by
  let sorted := emitter.append (sortBytes plane 0 0)
  let stopped := sorted.append stopBytes
  have stopRan : writeStop.run sorted = .ok () stopped := rfl
  have start : stopped.code.size = emitter.code.size + Assembly.frontJump := by
    simp [stopped, sorted, Assembly.frontJump, Nat.add_assoc]
  have backStart : (stopped.append front).code.size =
      emitter.code.size + (Assembly.frontJump + front.length) := by
    rw [Emitter.append_size, start, Nat.add_assoc]
  have backPatched : (patch emitter.code.size sortBackField
      (stopped.append front).code.size).run ((stopped.append front).append back) = .ok () _ :=
    (patch_eq_ok (by omega)).mpr ⟨by omega, rfl⟩
  have frontPatched : ∀ last, (patch emitter.code.size sortFrontField
      stopped.code.size).run last = .ok () _ :=
    fun _ => (patch_eq_ok (by omega)).mpr ⟨by omega, rfl⟩
  simp only [writeBranches, run_bind_eq_ok, writeSort_eq_ok, position_eq_ok]
  exact ⟨_, _, sorted, ⟨rfl, rfl⟩, (), stopped, stopRan, _, _, ⟨rfl, rfl⟩, (), _,
    frontRuns stopped, _, _, ⟨rfl, rfl⟩, (), _, backRuns _, (), _, backPatched, frontPatched _⟩

/-- A tree that can be written is written as its code, whatever stands in front of it. -/
theorem writeTree_run {tree : Tree} (encodable : tree.Encodable table) (emitter : Emitter) :
    (writeTree table tree).run emitter =
      .ok () (emitter.append (Assembly.ofTree table tree).code) := by
  have settled : ∀ {tree : Tree} {emitter : Emitter},
      (∃ result, (writeTree table tree).run emitter = .ok () result) →
        (writeTree table tree).run emitter =
          .ok () (emitter.append (Assembly.ofTree table tree).code) := by
    rintro tree emitter ⟨result, ran⟩
    obtain ⟨_, _, rfl⟩ := writeTree_eq_ok ran
    exact ran
  induction tree generalizing emitter with
  | leaf faces =>
      have each : ∀ entry ∈ faces.zipIdx, ∀ emitter : Emitter,
          (writeLeafFace table entry.1 entry.2).run emitter =
            .ok () (emitter.append (polygonOf table entry.1).bytes) := by
        intro entry member
        exact writeLeafFace_run (encodable entry.1 (List.fst_mem_of_mem_zipIdx member)) entry.2
      exact settled ⟨_, run_bind_eq_ok.mpr ⟨(), _, forM_run each emitter, rfl⟩⟩
  | split plane front back frontIH backIH =>
      obtain ⟨directed, fits, frontEncodable, backEncodable⟩ := encodable
      have frontRuns := frontIH frontEncodable
      obtain ⟨_, writable, _⟩ := writeTree_eq_ok (frontRuns {})
      rw [← Assembly.length_ofTree writable] at fits
      apply settled
      unfold writeTree
      rw [if_neg (by simp [directed])]
      exact writeBranches_run plane frontRuns (backIH backEncodable) fits emitter

/-- Only a tree that can be written is. -/
theorem encodable_of_writeTree {tree : Tree}
    (ran : (writeTree table tree).run emitter = .ok () result) : tree.Encodable table := by
  induction tree generalizing emitter result with
  | leaf faces =>
      unfold writeTree at ran
      obtain ⟨_, between, facesRan, _⟩ := run_bind_eq_ok.mp ran
      have each : ∀ (entry : Face × Nat) (emitter result : Emitter),
          (writeLeafFace table entry.1 entry.2).run emitter = .ok () result →
            entry.1.Encodable table ∧
              result = emitter.append (polygonOf table entry.1).bytes := by
        intro entry emitter result wrote
        exact ⟨encodable_of_writeLeafFace wrote, (writeLeafFace_eq_ok wrote).2⟩
      obtain ⟨encodable, _⟩ := forM_appends each facesRan
      intro face member
      obtain ⟨index, inRange, rfl⟩ := List.mem_iff_getElem.mp member
      exact encodable (faces[index], index) (by simp [List.mk_mem_zipIdx_iff_getElem?])
  | split plane front back frontIH backIH =>
      obtain ⟨⟨fits, _, _⟩, writable, _⟩ := writeTree_eq_ok ran
      rw [Assembly.length_ofTree fun face member => writable face (List.mem_append_left _ member)]
        at fits
      unfold writeTree at ran
      split_ifs at ran with degenerate
      · obtain ⟨_, _, thrown, _⟩ := run_bind_eq_ok.mp ran
        exact absurd thrown run_throw_ne_ok
      · obtain ⟨_, _, _, frontRan, backRan, _⟩ := writeBranches_eq_ok ran
        exact ⟨by simpa using degenerate, fits, frontIH frontRan, backIH backRan⟩

end Encoding

/-- Every tree has bytes that it is written as behind any code, if it can be written with the
table; whether it can does not depend on what is already written.  If it can, there are as many
bytes as its size says; if not, what was written before is still there, with perhaps some bytes
of the tree behind it. -/
theorem writeTree_outcome (table : VertexTable) (tree : Tree) :
    ∃ bytes : List UInt8, ∀ emitter : Emitter,
      ((∃ result, (writeTree table tree).run emitter = .ok () result) ↔
        tree.Encodable table) ∧
      (∀ result, (writeTree table tree).run emitter = .ok () result →
        result = emitter.append bytes ∧ bytes.length = tree.codeSize) ∧
      ∀ cause result, (writeTree table tree).run emitter = .error cause result →
        ∃ begun, result = emitter.append begun := by
  use (Assembly.ofTree table tree).code
  intro emitter
  refine ⟨⟨?_, ?_⟩, ?_, ?_⟩
  · rintro ⟨result, ran⟩
    exact encodable_of_writeTree ran
  · intro encodable
    exact ⟨_, writeTree_run encodable emitter⟩
  · intro result ran
    obtain ⟨_, writable, appended⟩ := writeTree_eq_ok ran
    exact ⟨appended, Assembly.length_ofTree writable⟩
  · intro cause result failed
    obtain ⟨begun, left⟩ := writeTree_appends table tree emitter
    rw [failed] at left
    exact ⟨begun, left⟩

end Code.Emission

end PaintOrder
