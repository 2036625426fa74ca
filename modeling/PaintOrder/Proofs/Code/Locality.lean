import PaintOrder.Proofs.Code.Decoding
import PaintOrder.Proofs.Code.Program

/-!
# Which bytes decide what is read

An instruction is decided by the bytes that it takes up and by nothing else: it is read in the
same way from any byte string that holds the same bytes there and is no shorter.  A program is
decided by the bytes of its instructions.
-/

namespace PaintOrder.Code

/-- Two byte strings hold the same bytes from a position up to another. -/
def SameBetween (data other : Array UInt8) (start stop : Nat) : Prop :=
  ∀ index, start ≤ index → index < stop → other[index]? = data[index]?

section Fields

variable {data other : Array UInt8} {start stop position : Nat}

theorem Holds.transfer {bytes : List UInt8} (holds : Holds data position bytes)
    (same : SameBetween data other start stop) (below : position + bytes.length ≤ stop)
    (above : start ≤ position := by omega) : Holds other position bytes := by
  induction bytes generalizing position with
  | nil => trivial
  | cons byte rest ih =>
      rw [List.length_cons] at below
      refine ⟨?_, ih holds.2 (by omega) (by omega)⟩
      rw [same position above (by omega)]
      exact holds.1

theorem NumberAt.transfer {number : Nat} (stands : NumberAt data position number)
    (same : SameBetween data other start stop) (below : position + 2 ≤ stop)
    (above : start ≤ position := by omega) : NumberAt other position number :=
  ⟨stands.1, stands.2.transfer same below⟩

theorem JumpAt.transfer {field target : Nat} (jump : JumpAt data start field target)
    (same : SameBetween data other start stop) (longer : data.size ≤ other.size)
    (below : start + field + 2 ≤ stop) : JumpAt other start field target := by
  obtain ⟨offset, holds, isTarget, inside⟩ := jump
  exact ⟨offset, holds.transfer same below, isTarget, Nat.lt_of_lt_of_le inside longer⟩

end Fields

namespace Instruction

variable {data other : Array UInt8} {address : Nat} {instruction : Instruction}

/-- An instruction stands wherever its bytes do. -/
theorem Stands.transfer (stands : instruction.Stands data address)
    (longer : data.size ≤ other.size)
    (same : SameBetween data other address (address + instruction.size)) :
    instruction.Stands other address := by
  refine ⟨?_, stands.complete.trans longer⟩
  cases stands.fields with
  | stop opcode => exact .stop (opcode.transfer same (Nat.le_refl _))
  | @points first positions opcode count base block =>
      have size : (points first positions).size =
          8 + (positions.flatMap FixedVector.bytes).length := by
        simp [Instruction.size, pointsSize, pointsHeaderSize, List.length_flatMap]
      have sameOpcode : ∀ word : UInt16, Holds data address (wordBytes word) →
          Holds other address (wordBytes word) :=
        fun word holds => holds.transfer same (by rw [length_wordBytes]; omega)
      exact .points (opcode.imp (sameOpcode _) (sameOpcode _))
        (count.transfer same (by omega)) (base.transfer same (by omega))
        (block.transfer same (by rw [pointsHeaderSize]; omega))
  | @draw polygon opcode count point normal paint indices painted uvs =>
      have indexLength :
          (polygon.corners.flatMap fun corner => signedWordBytes corner.index).length ≤
            indexListLength polygon.corners.length * 2 := by
        rw [← length_indexBytes, indexBytes, List.length_append]
        exact Nat.le_add_right _ _
      have size : (draw polygon).size =
          30 + indexListLength polygon.corners.length * 2 + (uvBytes polygon.corners).length := by
        rw [Instruction.size, polygonSize, polygonHeaderSize]
        cases textured : polygon.surface.isTextured with
        | false => rw [uvBytes_of_flat (textured ▸ painted)]; rfl
        | true => rw [length_uvBytes (textured ▸ painted)]; rfl
      refine .draw (opcode.transfer same ?_) (count.transfer same ?_) (point.transfer same ?_)
        (normal.transfer same ?_) (paint.transfer same ?_) (indices.transfer same ?_) painted
        (uvs.transfer same ?_)
      all_goals
        simp only [length_wordBytes, length_vector_bytes, FixedVector.byteSize, polygonHeaderSize,
          size]
        omega
  | @sort front back opcode frontJump backJump =>
      have size : (sort front back).size = 32 := rfl
      refine .sort (opcode.transfer same ?_) (frontJump.transfer same longer ?_)
        (backJump.transfer same longer ?_)
      all_goals
        simp only [length_wordBytes, sortFrontField, sortBackField, size]
        omega
  | @call submodel offset target opcode callee place jump =>
      have size : (call submodel offset target).size = 20 := rfl
      refine .call (opcode.transfer same ?_) (callee.transfer same ?_) (place.transfer same ?_)
        (jump.transfer same longer ?_)
      all_goals
        simp only [length_wordBytes, length_vector_bytes, FixedVector.byteSize, callJumpField,
          size]
        omega

/-- An instruction is read from any bytes that hold it. -/
theorem at_transfer (read : Instruction.at data address = .ok instruction)
    (longer : data.size ≤ other.size)
    (same : SameBetween data other address (address + instruction.size)) :
    Instruction.at other address = .ok instruction := by
  obtain ⟨stands, legal⟩ := at_eq_ok_iff.mp read
  exact at_eq_ok_iff.mpr ⟨stands.transfer longer same, legal⟩

end Instruction

/-- Another byte string holds the same bytes where the instruction at an address stands. -/
def SameInstruction (data other : Array UInt8) (address : Nat) : Prop :=
  ∀ instruction, Instruction.at data address = .ok instruction →
    SameBetween data other address (address + instruction.size)

namespace Program

variable {data other : Array UInt8} {program : Program} {address : Nat}

/-- A program is laid out wherever the bytes of its instructions are. -/
theorem LaidOut.transfer (laidOut : program.LaidOut data address)
    (longer : data.size ≤ other.size)
    (same : ∀ place ∈ program.addresses address, SameInstruction data other place) :
    program.LaidOut other address := by
  have read : ∀ {place instruction}, SameInstruction data other place →
      Instruction.at data place = .ok instruction →
        Instruction.at other place = .ok instruction :=
    fun same read => Instruction.at_transfer read longer (same _ read)
  induction program generalizing address with
  | stop =>
      rw [addresses, List.forall_mem_singleton] at same
      exact read same laidOut
  | points first positions rest ih =>
      rw [addresses, List.forall_mem_cons] at same
      exact ⟨read same.1 laidOut.1, ih laidOut.2 same.2⟩
  | draw polygon rest ih =>
      rw [addresses, List.forall_mem_cons] at same
      exact ⟨read same.1 laidOut.1, ih laidOut.2 same.2⟩
  | sort frontAt backAt front back rest frontIH backIH restIH =>
      rw [addresses, List.forall_mem_cons, List.forall_mem_append, List.forall_mem_append] at same
      obtain ⟨sort, inFront, inBack, behind⟩ := same
      exact ⟨read sort laidOut.1, frontIH laidOut.2.1 inFront, backIH laidOut.2.2.1 inBack,
        restIH laidOut.2.2.2 behind⟩
  | call submodel offset target callee rest calleeIH restIH =>
      rw [addresses, List.forall_mem_cons, List.forall_mem_append] at same
      obtain ⟨call, inCallee, behind⟩ := same
      exact ⟨read call laidOut.1, calleeIH laidOut.2.1 inCallee, restIH laidOut.2.2 behind⟩

end Program

end PaintOrder.Code
