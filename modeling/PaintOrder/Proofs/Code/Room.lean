import Mathlib.Algebra.BigOperators.Group.List.Basic
import Mathlib.Algebra.GroupWithZero.Nat
import PaintOrder.Proofs.Code.Trees

/-!
# Room for code

A step of the emitter that only fails for want of room takes a fixed number of bytes: it
succeeds in front of every end of the code that leaves as many.  Every vertex number in use
has its point in the code, so where there is room for the code there is also room for the
numbers.
-/

namespace PaintOrder.Code

/-- Every vertex number in use has its point in the code. -/
def Emitter.Covered (emitter : Emitter) : Prop :=
  emitter.nextVertex * FixedVector.byteSize ≤ emitter.code.size

namespace Emission

/-- A step writes so many bytes wherever there is room for them. -/
def Takes (step : Emission Unit) (length : Nat) : Prop :=
  ∀ emitter : Emitter, emitter.Covered → emitter.code.size + length ≤ maxWord →
    ∃ result, step.run emitter = .ok () result ∧ result.Covered ∧
      result.code.size = emitter.code.size + length

theorem Takes.andThen {first second : Emission Unit} {firstLength secondLength : Nat}
    (firstTakes : Takes first firstLength) (secondTakes : Takes second secondLength) :
    Takes (do first; second) (firstLength + secondLength) := by
  intro emitter covered room
  obtain ⟨between, firstRan, betweenCovered, betweenSize⟩ :=
    firstTakes emitter covered (by omega)
  obtain ⟨result, secondRan, resultCovered, resultSize⟩ :=
    secondTakes between betweenCovered (by omega)
  exact ⟨result, run_bind_eq_ok.mpr ⟨(), between, firstRan, secondRan⟩, resultCovered,
    by omega⟩

theorem forM_takes {α : Type} {step : α → Emission Unit} {length : α → Nat}
    {elements : List α} (each : ∀ element ∈ elements, Takes (step element) (length element)) :
    Takes (elements.forM step) (elements.map length).sum := by
  induction elements with
  | nil =>
      intro emitter covered _
      exact ⟨emitter, rfl, covered, rfl⟩
  | cons element rest ih =>
      rw [List.map_cons, List.sum_cons]
      exact (each element (by simp)).andThen (ih fun other member => each other (by simp [member]))

theorem append_covered {emitter : Emitter} (covered : emitter.Covered) (bytes : List UInt8) :
    (emitter.append bytes).Covered := by
  rw [Emitter.Covered] at covered ⊢
  rw [Emitter.append_size, Emitter.append_nextVertex]
  omega

theorem write_takes (bytes : List UInt8) : Takes (write bytes) bytes.length := by
  intro emitter covered _
  exact ⟨_, write_eq_ok.mpr rfl, append_covered covered bytes, Emitter.append_size _ _⟩

theorem writePoints_run {emitter : Emitter} {table : VertexTable}
    (baseFits : table.base ≤ maxWord) (countFits : table.size ≤ maxWord) :
    (writePoints table).run emitter =
      .ok () (emitter.append (pointsBytes table.base table.positions.toList)) := by
  simp only [writePoints, run_bind_eq_ok, narrow_nat_eq_ok, write_eq_ok]
  refine ⟨_, _, ⟨countFits, rfl, rfl⟩, _, _, ⟨baseFits, rfl, rfl⟩, (), _, rfl, ?_⟩
  rw [Emitter.append_append, pointsBytes, Array.length_toList]
  rfl

/-- Where there is room for the points whose numbers come next, there are also numbers for
them. -/
theorem writePoints_takes {emitter : Emitter} (covered : emitter.Covered) {table : VertexTable}
    (next : table.base = emitter.nextVertex) (entries : Array Nat)
    (room : emitter.code.size + pointsSize table.size ≤ maxWord) :
    table.finish ≤ maxWord ∧ ∃ result,
      (writePoints table).run (emitter.record table.finish entries) = .ok () result ∧
        result.Covered ∧ result.code.size = emitter.code.size + pointsSize table.size := by
  let result := (emitter.record table.finish entries).append
    (pointsBytes table.base table.positions.toList)
  have size : result.code.size = emitter.code.size + pointsSize table.size := by
    rw [Emitter.append_size, length_pointsBytes, Array.length_toList, Emitter.record_code]
    rfl
  have nextVertex : result.nextVertex = emitter.nextVertex + table.size := by
    rw [← next]
    rfl
  rw [Emitter.Covered, FixedVector.byteSize] at covered
  rw [pointsSize, pointsHeaderSize, FixedVector.byteSize] at room size ⊢
  have fits : table.finish ≤ maxWord := by
    rw [VertexTable.finish, next]
    omega
  have resultCovered : result.Covered := by
    rw [Emitter.Covered, size, nextVertex, FixedVector.byteSize]
    omega
  exact ⟨fits, result, writePoints_run (by omega) (by omega), resultCovered, size⟩

/-- A jump that fits into a word is filled in without taking room. -/
theorem patch_run {emitter : Emitter} (covered : emitter.Covered) {instruction target : Nat}
    (field : Nat) (ahead : instruction ≤ target) (fits : target - instruction ≤ maxWord) :
    ∃ result, (patch instruction field target).run emitter = .ok () result ∧
      result.Covered ∧ result.code.size = emitter.code.size := by
  have same : ∀ (position : Nat) (word : Int16),
      (overwrite emitter position word).code.size = emitter.code.size := by
    simp [overwrite]
  refine ⟨_, (patch_eq_ok ahead).mpr ⟨fits, rfl⟩, ?_, same _ _⟩
  rw [Emitter.Covered, same]
  exact covered

/-- A sort takes its own bytes, its stop and both branches. -/
theorem writeBranches_takes (plane : Plane) {writeFront writeBack : Emission Unit}
    {front back : Nat} (frontTakes : Takes writeFront front)
    (backTakes : Takes writeBack back) :
    Takes (writeBranches plane writeFront writeBack)
      (Assembly.frontJump + front + back) := by
  intro emitter covered room
  let sorted := emitter.append (sortBytes plane 0 0)
  let stopped := sorted.append stopBytes
  have start : stopped.code.size = emitter.code.size + Assembly.frontJump := by
    simp [stopped, sorted, Assembly.frontJump, Nat.add_assoc]
  have stopRan : writeStop.run sorted = .ok () stopped := rfl
  obtain ⟨afterFront, frontRan, frontCovered, frontSize⟩ :=
    frontTakes stopped (append_covered (append_covered covered _) _) (by omega)
  obtain ⟨afterBack, backRan, backCovered, backSize⟩ :=
    backTakes afterFront frontCovered (by omega)
  obtain ⟨last, backPatched, lastCovered, lastSize⟩ := patch_run backCovered sortBackField
    (show emitter.code.size ≤ afterFront.code.size by omega) (by omega)
  obtain ⟨result, frontPatched, resultCovered, resultSize⟩ := patch_run lastCovered
    sortFrontField (show emitter.code.size ≤ stopped.code.size by omega) (by omega)
  refine ⟨result, ?_, resultCovered, by omega⟩
  simp only [writeBranches, run_bind_eq_ok, writeSort_eq_ok, position_eq_ok]
  exact ⟨_, sorted, ⟨rfl, rfl⟩, (), stopped, stopRan, _, _, ⟨rfl, rfl⟩, (), afterFront,
    frontRan, _, _, ⟨rfl, rfl⟩, (), afterBack, backRan, (), last, backPatched, frontPatched⟩

/-- A call takes its own bytes, its stop and what it calls. -/
theorem writeCall_takes {submodel : Nat} (fits : submodel ≤ maxWord) (offset : FixedVector)
    {writeCallee : Emission Unit} {callee : Nat} (calleeTakes : Takes writeCallee callee) :
    Takes (do
        let call ← writeCall submodel offset
        writeStop
        patch call callJumpField (← position)
        writeCallee)
      (Assembly.callJump + callee) := by
  intro emitter covered room
  let called := emitter.append (callBytes submodel offset 0)
  let stopped := called.append stopBytes
  have start : stopped.code.size = emitter.code.size + Assembly.callJump := by
    simp [stopped, called, Assembly.callJump, Nat.add_assoc]
  have stopRan : writeStop.run called = .ok () stopped := rfl
  have stoppedCovered : stopped.Covered := append_covered (append_covered covered _) _
  obtain ⟨between, patched, betweenCovered, betweenSize⟩ := patch_run stoppedCovered
    callJumpField (show emitter.code.size ≤ stopped.code.size by omega) (by omega)
  obtain ⟨result, calleeRan, resultCovered, resultSize⟩ :=
    calleeTakes between betweenCovered (by omega)
  refine ⟨result, ?_, resultCovered, by omega⟩
  simp only [run_bind_eq_ok, writeCall_eq_ok, position_eq_ok]
  exact ⟨_, called, ⟨fits, rfl, rfl⟩, (), stopped, stopRan, _, _, ⟨rfl, rfl⟩, (), between,
    patched, calleeRan⟩

end Emission

end PaintOrder.Code
