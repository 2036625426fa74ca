import PaintOrder.Proofs.Code.Assembly

/-!
# Code read back to back

Bytes of code can be gone through in two ways.  An execution follows the jumps; a disassembly
takes the instructions as they lie, each right behind the one before, up to the end of the
bytes.  In code that the compiler lays out, both come to the same instructions, so that no
byte is outside of the instructions that are executed.
-/

namespace PaintOrder.Code

/-- Instructions lie back to back from a start on, and the last one ends at the finish. -/
def BackToBack (data : Array UInt8) : Nat → List (Nat × Instruction) → Nat → Prop
  | start, [], finish => start = finish
  | start, (position, instruction) :: rest, finish =>
      position = start ∧ Instruction.at data position = .ok instruction ∧
        BackToBack data (position + instruction.size) rest finish

/-- The instructions from a position up to the end of the bytes, with where each of them
starts.  Jumps are not followed. -/
def disassemble (data : Array UInt8) (position : Nat) : Except Error (List (Nat × Instruction)) :=
  if _ : position < data.size then do
    let instruction ← Instruction.at data position
    let rest ← disassemble data (position + instruction.size)
    return (position, instruction) :: rest
  else if position = data.size then return []
  else throw (.format (.truncated position))
termination_by data.size - position
decreasing_by
  have positive := instruction.size_pos
  omega

variable {data : Array UInt8} {start middle finish : Nat}
  {listed more : List (Nat × Instruction)}

theorem BackToBack.append (first : BackToBack data start listed middle)
    (second : BackToBack data middle more finish) :
    BackToBack data start (listed ++ more) finish := by
  induction listed generalizing start with
  | nil =>
      obtain rfl : start = middle := first
      exact second
  | cons entry rest ih =>
      obtain ⟨here, read, later⟩ := first
      exact ⟨here, read, ih later⟩

/-- What lies back to back up to the end of the bytes is what a disassembly finds. -/
theorem BackToBack.disassemble_eq (lies : BackToBack data start listed data.size) :
    disassemble data start = .ok listed := by
  induction listed generalizing start with
  | nil =>
      obtain rfl : start = data.size := lies
      rw [disassemble, dif_neg (Nat.lt_irrefl _), if_pos rfl]
      rfl
  | cons entry rest ih =>
      obtain ⟨position, instruction⟩ := entry
      obtain ⟨rfl, read, later⟩ := lies
      have inside : position < data.size := by
        have complete := (Instruction.at_eq_ok_iff.mp read).1.complete
        have positive := instruction.size_pos
        omega
      rw [disassemble, dif_pos inside, read, ok_bind, ih later, ok_bind]
      rfl

namespace Assembly

/-- The instructions of a piece of code at an address, in the order in which they lie. -/
def instructions : Assembly → Nat → List (Nat × Instruction)
  | stop, address => [(address, .stop)]
  | points first positions rest, address =>
      (address, .points first positions) ::
        rest.instructions (address + pointsSize positions.length)
  | draw polygon rest, address =>
      (address, .draw polygon) :: rest.instructions
        (address + polygonSize polygon.corners.length polygon.surface.isTextured)
  | sort _ front back, address =>
      (address, .sort (address + frontJump) (address + (frontJump + front.code.length))) ::
        (address + sortSize, .stop) ::
          (front.instructions (address + frontJump) ++
            back.instructions (address + (frontJump + front.code.length)))
  | call submodel offset callee, address =>
      (address, .call submodel offset (address + callJump)) ::
        (address + callSize, .stop) :: callee.instructions (address + callJump)

/-- A program is laid out without gaps. -/
theorem backToBack {assembly : Assembly} (fits : assembly.Fits) {address : Nat}
    (laidOut : (assembly.program address).LaidOut data address) :
    BackToBack data address (assembly.instructions address)
      (address + assembly.code.length) := by
  induction assembly generalizing address with
  | stop => exact ⟨rfl, laidOut, rfl⟩
  | points first positions rest ih =>
      have behind := ih fits.2.2 laidOut.2
      rw [Nat.add_assoc] at behind
      refine ⟨rfl, laidOut.1, ?_⟩
      rw [code, List.length_append, length_pointsBytes]
      exact behind
  | draw polygon rest ih =>
      have behind := ih fits.2 laidOut.2
      rw [Nat.add_assoc] at behind
      refine ⟨rfl, laidOut.1, ?_⟩
      rw [code, List.length_append, fits.1.length_bytes]
      exact behind
  | sort plane front back frontIH backIH =>
      obtain ⟨_, frontFits, backFits⟩ := fits
      obtain ⟨sortRead, frontLaidOut, backLaidOut, stopRead⟩ := laidOut
      have inFront := frontIH frontFits frontLaidOut
      rw [Nat.add_assoc] at inFront
      have both := inFront.append (backIH backFits backLaidOut)
      rw [length_sort_code, ← Nat.add_assoc]
      exact ⟨rfl, sortRead, rfl, stopRead, both⟩
  | call submodel offset callee ih =>
      obtain ⟨callRead, calleeLaidOut, stopRead⟩ := laidOut
      have called := ih fits.2.2 calleeLaidOut
      rw [length_call_code, ← Nat.add_assoc]
      exact ⟨rfl, callRead, rfl, stopRead, called⟩

/-- An execution comes to the instructions that lie there, though in another order. -/
theorem starts_perm (assembly : Assembly) (address : Nat) :
    ((assembly.instructions address).map Prod.fst).Perm
      ((assembly.program address).addresses address) := by
  induction assembly generalizing address with
  | stop => exact .refl _
  | points first positions rest ih => exact (ih _).cons _
  | draw polygon rest ih => exact (ih _).cons _
  | sort plane front back frontIH backIH =>
      simp only [instructions, program, Program.addresses, List.map_cons, List.map_append]
      refine List.Perm.cons _ ?_
      -- The stop is executed after both branches.
      refine (List.perm_append_singleton _ _).symm.trans ?_
      rw [List.append_assoc]
      exact (frontIH _).append ((backIH _).append (.refl _))
  | call submodel offset callee ih =>
      simp only [instructions, program, Program.addresses, List.map_cons]
      refine List.Perm.cons _ ?_
      exact (List.perm_append_singleton _ _).symm.trans ((ih _).append (.refl _))

theorem start_mem (assembly : Assembly) (address : Nat) :
    address ∈ (assembly.instructions address).map Prod.fst := by
  cases assembly <;> exact List.mem_cons_self

end Assembly

end PaintOrder.Code
