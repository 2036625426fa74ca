import PaintOrder.Proofs.Code.Locality
import PaintOrder.Proofs.Model.CallOrder
import PaintOrder.Proofs.Model.Format

/-!
# Recovery is local

Executing code marks the instructions that it reaches.  The bytes that these take up decide
what is recovered: a byte string that is no shorter and holds the same bytes there gives the
same submodels, whatever else it holds and whatever is appended to it.
-/

namespace PaintOrder.Model

open Code

/-- The positions of all bytes of marked instructions. -/
def markedBytes (data : Array UInt8) (executed : Array Bool) : List Nat :=
  (List.range data.size).flatMap fun address =>
    match executed.getD address false, Instruction.at data address with
    | true, .ok instruction => List.range' address instruction.size
    | _, _ => []

/-- The positions of all bytes of the instructions that an execution from an entry reaches. -/
def executedBytes (data : Array UInt8) (entry : Nat) : List Nat :=
  markedBytes data (leftover ((Execution.fromEntry data entry).run (.start data))).executed

variable {data other : Array UInt8} {entry : Nat}

theorem mem_markedBytes {executed : Array Bool} {address index : Nat} {instruction : Instruction}
    (marked : executed.getD address false = true)
    (read : Instruction.at data address = .ok instruction) (above : address ≤ index)
    (below : index < address + instruction.size) : index ∈ markedBytes data executed := by
  have inside : address + 2 ≤ data.size := Execution.inside_of_at read
  refine List.mem_flatMap.mpr ⟨address, List.mem_range.mpr (by omega), ?_⟩
  simp only [marked, read]
  exact List.mem_range'_1.mpr ⟨above, below⟩

section Programs

variable {program : Program} {result : Recovery} (laidOut : program.LaidOut data entry)
  (ran : (Execution.fromEntry data entry).run (.start data) = .ok () result)

include laidOut ran

theorem went_of_run :
    Went (program.addresses entry) (program.events 0 entry)
      { Recovery.start data with buckets := #[some { entry := entry }] } result := by
  rw [Execution.fromEntry_run] at ran
  exact Program.went_of_walk laidOut Array.size_replicate ran

/-- Executing a program reaches its instructions and no others. -/
theorem executedBytes_eq :
    executedBytes data entry =
      markedBytes data (markAll (.replicate data.size false) (program.addresses entry)) := by
  obtain ⟨left, _, rfl⟩ := (went_of_run laidOut ran).performed
  rw [executedBytes, ran]
  rfl

theorem sameInstruction_of_executed
    (same : ∀ index ∈ executedBytes data entry, other[index]? = data[index]?) :
    ∀ place ∈ program.addresses entry, SameInstruction data other place := by
  rw [executedBytes_eq laidOut ran] at same
  intro place member instruction read index above below
  have marked := getD_markAll_of_mem member ((went_of_run laidOut ran).inside place member)
  exact same index (mem_markedBytes marked read above below)

end Programs

/-- What is recovered depends on no bytes but those of the instructions that are executed. -/
theorem decompileAt_depends_on_executed {model : Model}
    (recovered : decompileAt data entry = .ok model) (longer : data.size ≤ other.size)
    (same : ∀ index ∈ executedBytes data entry, other[index]? = data[index]?) :
    decompileAt other entry = .ok { model with data := other } := by
  cases ran : (Execution.fromEntry data entry).run (.start data) with
  | error cause left =>
      rw [decompileAt, ran] at recovered
      cases recovered
  | ok nothing result =>
      obtain ⟨program, laidOut, once, shallow, possible, records⟩ := exists_program_of_run ran
      obtain ⟨calls, rfl⟩ := (decompileAt_of_records possible ran records).mp recovered
      have otherLaidOut := laidOut.transfer longer (sameInstruction_of_executed laidOut ran same)
      obtain ⟨otherResult, otherRan, otherRecords⟩ :=
        exists_run_of_program otherLaidOut once shallow possible
      exact (decompileAt_of_records possible otherRan otherRecords).mpr ⟨calls, rfl⟩

/-- The bytes in the gap and at the end are not looked at. -/
theorem scatteredCode_depends_on_executed :
    ∃ model, decompileAt (scatteredCode [255, 255] [9]) 0 = .ok model ∧
      (scatteredCode [255, 255] [9]).size ≤ (scatteredCode [1, 2] [3, 4, 5]).size ∧
      (∀ index ∈ executedBytes (scatteredCode [255, 255] [9]) 0,
        (scatteredCode [1, 2] [3, 4, 5])[index]? = (scatteredCode [255, 255] [9])[index]?) ∧
      decompileAt (scatteredCode [1, 2] [3, 4, 5]) 0 =
        .ok { model with data := scatteredCode [1, 2] [3, 4, 5] } := by
  obtain ⟨result, ran, recovered⟩ := scatteredCode_recovered
  have longer : (scatteredCode [255, 255] [9]).size ≤ (scatteredCode [1, 2] [3, 4, 5]).size := by
    decide +kernel
  have same : ∀ index ∈ executedBytes (scatteredCode [255, 255] [9]) 0,
      (scatteredCode [1, 2] [3, 4, 5])[index]? = (scatteredCode [255, 255] [9])[index]? := by
    rw [executedBytes_eq scatteredProgram_laidOut ran]
    decide +kernel
  exact ⟨_, recovered, longer, same, decompileAt_depends_on_executed recovered longer same⟩

end PaintOrder.Model
