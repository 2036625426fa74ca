import Mathlib.Data.List.Nodup
import PaintOrder.Proofs.Code.Decoding
import PaintOrder.Proofs.Code.Program

/-!
# How the compiler lays out code

The compiler writes a sort in front of its two branches and a call in front of the submodel
that it calls, each followed by a stop; everything else is followed by what comes next:

    sort, stop, front branch, back branch
    call, stop, code of the submodel

So code is a string of bytes that means the same program wherever it stands, with every
instruction at a different address.
-/

namespace PaintOrder.Code

/-- Code with its parts in the order in which they are written. -/
inductive Assembly where
  | stop
  | points (first : Nat) (positions : List FixedVector) (rest : Assembly)
  | draw (polygon : Polygon) (rest : Assembly)
  | sort (plane : Plane) (front back : Assembly)
  | call (submodel : Nat) (offset : FixedVector) (callee : Assembly)

namespace Assembly

/-- How far behind a sort its front branch starts. -/
def frontJump : Nat := sortSize + stopSize

/-- How far behind a call the submodel starts. -/
def callJump : Nat := callSize + stopSize

def code : Assembly → List UInt8
  | stop => stopBytes
  | points first positions rest => pointsBytes first positions ++ rest.code
  | draw polygon rest => polygon.bytes ++ rest.code
  | sort plane front back =>
      sortBytes plane (numberWord (frontJump + front.code.length)) (numberWord frontJump) ++
        (stopBytes ++ (front.code ++ back.code))
  | call submodel offset callee =>
      callBytes submodel offset (numberWord callJump) ++ (stopBytes ++ callee.code)

/-- Everything that is written as a word fits into one. -/
def Fits : Assembly → Prop
  | stop => True
  | points first positions rest =>
      first ≤ maxWord ∧ positions.length ≤ maxWord ∧ rest.Fits
  | draw polygon rest => polygon.Proper ∧ rest.Fits
  | sort _ front back => frontJump + front.code.length ≤ maxWord ∧ front.Fits ∧ back.Fits
  | call submodel _ callee => 0 < submodel ∧ submodel ≤ maxWord ∧ callee.Fits

/-- The program at an address. -/
def program : Assembly → Nat → Program
  | stop, _ => .stop
  | points first positions rest, address =>
      .points first positions (rest.program (address + pointsSize positions.length))
  | draw polygon rest, address =>
      .draw polygon (rest.program
        (address + polygonSize polygon.corners.length polygon.surface.isTextured))
  | sort _ front back, address =>
      .sort (address + frontJump) (address + (frontJump + front.code.length))
        (front.program (address + frontJump))
        (back.program (address + (frontJump + front.code.length))) .stop
  | call submodel offset callee, address =>
      .call submodel offset (address + callJump) (callee.program (address + callJump)) .stop

def depth : Assembly → Nat
  | stop => 0
  | points _ _ rest => rest.depth
  | draw _ rest => rest.depth
  | sort _ front back => max (front.depth + 1) (back.depth + 1)
  | call _ _ callee => callee.depth + 1

theorem program_depth (assembly : Assembly) (address : Nat) :
    (assembly.program address).depth = assembly.depth := by
  induction assembly generalizing address with
  | stop => rfl
  | points first positions rest ih => exact ih _
  | draw polygon rest ih => exact ih _
  | sort plane front back frontIH backIH =>
      simp [program, Program.depth, depth, frontIH, backIH]
  | call submodel offset callee ih => simp [program, Program.depth, depth, ih]

/-- A sort has the events of its front branch and then those of its back branch. -/
theorem sort_events (plane : Plane) (front back : Assembly) (submodel address : Nat) :
    ((sort plane front back).program address).events submodel address =
      (front.program (address + frontJump)).events submodel (address + frontJump) ++
        (back.program (address + (frontJump + front.code.length))).events submodel
          (address + (frontJump + front.code.length)) := by
  simp [program, Program.events]

/-- A call opens a submodel and then has the events of its code. -/
theorem call_events (caller address submodel : Nat) (offset : FixedVector) (callee : Assembly) :
    ((call submodel offset callee).program address).events caller address =
      .opened submodel
          { parent := some caller, offset := offset, entry := address + callJump } ::
        (callee.program (address + callJump)).events submodel (address + callJump) := by
  simp [program, Program.events]

theorem code_length_pos (assembly : Assembly) : 0 < assembly.code.length := by
  cases assembly <;> simp [code, stopSize, pointsSize, pointsHeaderSize, sortSize, callSize,
    Polygon.bytes, wordBytes]

theorem size_le_of_holds {data : Array UInt8} {assembly : Assembly} {address : Nat}
    (holds : Holds data address assembly.code) :
    address + assembly.code.length ≤ data.size :=
  holds.le_size (List.ne_nil_of_length_pos assembly.code_length_pos)

theorem length_sort_code (plane : Plane) (front back : Assembly) :
    (sort plane front back).code.length =
      frontJump + front.code.length + back.code.length := by
  simp only [code, List.length_append, length_sortBytes, length_stopBytes, frontJump]
  omega

theorem length_call_code (submodel : Nat) (offset : FixedVector) (callee : Assembly) :
    (call submodel offset callee).code.length = callJump + callee.code.length := by
  simp only [code, List.length_append, length_callBytes, length_stopBytes, callJump]
  omega

section Parts

variable {data : Array UInt8} {address submodel : Nat} {plane : Plane} {offset : FixedVector}
  {front back callee : Assembly}

/-- Where the parts of a sort stand. -/
theorem holds_sort (holds : Holds data address (sort plane front back).code) :
    Holds data address
        (sortBytes plane (numberWord (frontJump + front.code.length)) (numberWord frontJump)) ∧
      Holds data (address + sortSize) stopBytes ∧
      Holds data (address + frontJump) front.code ∧
      Holds data (address + (frontJump + front.code.length)) back.code := by
  simp only [code, holds_append, length_sortBytes, length_stopBytes] at holds
  rwa [← Nat.add_assoc, frontJump, ← Nat.add_assoc]

/-- Where the parts of a call stand. -/
theorem holds_call (holds : Holds data address (call submodel offset callee).code) :
    Holds data address (callBytes submodel offset (numberWord callJump)) ∧
      Holds data (address + callSize) stopBytes ∧
      Holds data (address + callJump) callee.code := by
  simp only [code, holds_append, length_callBytes, length_stopBytes] at holds
  rwa [callJump, ← Nat.add_assoc]

end Parts

/-- The bytes of a piece of code are its program. -/
theorem laidOut {data : Array UInt8} {assembly : Assembly} (fits : assembly.Fits)
    {address : Nat} (holds : Holds data address assembly.code) :
    (assembly.program address).LaidOut data address := by
  induction assembly generalizing address with
  | stop => exact at_of_stopBytes holds
  | points first positions rest ih =>
      obtain ⟨firstFits, countFits, restFits⟩ := fits
      rw [code, holds_append, length_pointsBytes] at holds
      exact ⟨at_of_pointsBytes firstFits countFits holds.1, ih restFits holds.2⟩
  | draw polygon rest ih =>
      obtain ⟨proper, restFits⟩ := fits
      rw [code, holds_append, proper.length_bytes] at holds
      exact ⟨at_of_polygonBytes proper holds.1, ih restFits holds.2⟩
  | sort plane front back frontIH backIH =>
      obtain ⟨jumpFits, frontFits, backFits⟩ := fits
      obtain ⟨sortHolds, stopHolds, frontHolds, backHolds⟩ := holds_sort holds
      have inside := size_le_of_holds backHolds
      have positive := back.code_length_pos
      exact ⟨at_of_sortBytes jumpFits (by omega) (by omega) (by omega) sortHolds,
        frontIH frontFits frontHolds, backIH backFits backHolds, at_of_stopBytes stopHolds⟩
  | call submodel offset callee ih =>
      obtain ⟨positive, submodelFits, calleeFits⟩ := fits
      obtain ⟨callHolds, stopHolds, calleeHolds⟩ := holds_call holds
      have inside := size_le_of_holds calleeHolds
      have calleePositive := callee.code_length_pos
      have jumpFits : callJump ≤ maxWord := by decide
      exact ⟨at_of_callBytes positive submodelFits jumpFits (by omega) callHolds,
        ih calleeFits calleeHolds, at_of_stopBytes stopHolds⟩

theorem addresses_inside {assembly : Assembly} (fits : assembly.Fits) {address : Nat} :
    ∀ place ∈ (assembly.program address).addresses address,
      address ≤ place ∧ place < address + assembly.code.length := by
  induction assembly generalizing address with
  | stop => simp [program, Program.addresses, code, stopSize]
  | points first positions rest ih =>
      intro place member
      have positive := rest.code_length_pos
      simp only [program, Program.addresses, List.mem_cons] at member
      simp only [code, List.length_append, length_pointsBytes]
      rcases member with rfl | later
      · omega
      · have := ih fits.2.2 place later
        omega
  | draw polygon rest ih =>
      intro place member
      have positive := rest.code_length_pos
      simp only [program, Program.addresses, List.mem_cons] at member
      simp only [code, List.length_append, fits.1.length_bytes]
      rcases member with rfl | later
      · omega
      · have := ih fits.2 place later
        omega
  | sort plane front back frontIH backIH =>
      intro place member
      simp only [program, Program.addresses, List.mem_cons, List.mem_append,
        List.not_mem_nil, or_false] at member
      have positive := front.code_length_pos
      have jump : frontJump = sortSize + stopSize := rfl
      rw [length_sort_code]
      rcases member with rfl | inFront | behind | rfl
      · omega
      · have := frontIH fits.2.1 place inFront
        omega
      · have := backIH fits.2.2 place behind
        omega
      · omega
  | call submodel offset callee ih =>
      intro place member
      simp only [program, Program.addresses, List.mem_cons, List.mem_append,
        List.not_mem_nil, or_false] at member
      have positive := callee.code_length_pos
      have jump : callJump = callSize + stopSize := rfl
      rw [length_call_code]
      rcases member with rfl | called | rfl
      · omega
      · have := ih fits.2.2 place called
        omega
      · omega

/-- Addresses in front of a bound and at or behind it are different. -/
theorem nodup_append_of_bound (bound : Nat) {front behind : List Nat}
    (frontDistinct : front.Nodup) (behindDistinct : behind.Nodup)
    (below : ∀ place ∈ front, place < bound) (above : ∀ place ∈ behind, bound ≤ place) :
    (front ++ behind).Nodup := by
  refine List.nodup_append.mpr ⟨frontDistinct, behindDistinct, ?_⟩
  rintro place inFront _ inBehind rfl
  exact Nat.not_lt_of_le (above place inBehind) (below place inFront)

/-- An instruction that jumps behind its stop: the instruction and the stop stand in front of
whatever is jumped to. -/
theorem nodup_jump {start stop : Nat} {targets : List Nat} (ordered : start < stop)
    (distinct : targets.Nodup) (behind : ∀ place ∈ targets, stop < place) :
    (start :: (targets ++ [stop])).Nodup := by
  have stopFirst : (start :: (targets ++ [stop])).Perm ([start, stop] ++ targets) :=
    (List.perm_append_singleton stop targets).cons start
  rw [stopFirst.nodup_iff]
  refine nodup_append_of_bound (stop + 1) ?_ distinct ?_ behind
  · simpa using Nat.ne_of_lt ordered
  · simpa using Nat.lt_succ_of_lt ordered

/-- The branches of a sort stand one after the other behind its stop. -/
theorem sort_addresses_nodup {plane : Plane} {front back : Assembly} {address : Nat}
    (frontFits : front.Fits) (backFits : back.Fits)
    (frontDistinct : ((front.program (address + frontJump)).addresses
      (address + frontJump)).Nodup)
    (backDistinct : ((back.program (address + (frontJump + front.code.length))).addresses
      (address + (frontJump + front.code.length))).Nodup) :
    (((sort plane front back).program address).addresses address).Nodup := by
  have jump : address + sortSize < address + frontJump := by
    rw [frontJump, stopSize]
    omega
  have inFront : ∀ place ∈ (front.program (address + frontJump)).addresses _, _ :=
    addresses_inside frontFits
  have inBack : ∀ place ∈
      (back.program (address + (frontJump + front.code.length))).addresses _, _ :=
    addresses_inside backFits
  rw [program, Program.addresses, Program.addresses, ← List.append_assoc]
  apply nodup_jump
  · rw [sortSize]
    omega
  · apply nodup_append_of_bound (address + (frontJump + front.code.length)) frontDistinct
      backDistinct
    · intro place member
      rw [← Nat.add_assoc]
      exact (inFront place member).2
    · intro place member
      exact (inBack place member).1
  · intro place member
    rcases List.mem_append.mp member with branch | branch
    · have := (inFront place branch).1
      omega
    · have := (inBack place branch).1
      omega

/-- The code of a called submodel stands behind the stop of the call. -/
theorem call_addresses_nodup {submodel address : Nat} {offset : FixedVector}
    {callee : Assembly} (calleeFits : callee.Fits)
    (calleeDistinct : ((callee.program (address + callJump)).addresses
      (address + callJump)).Nodup) :
    (((call submodel offset callee).program address).addresses address).Nodup := by
  have jump : address + callSize < address + callJump := by
    rw [callJump, stopSize]
    omega
  rw [program, Program.addresses, Program.addresses]
  apply nodup_jump _ calleeDistinct
  · intro place member
    exact Nat.lt_of_lt_of_le jump (addresses_inside calleeFits place member).1
  · rw [callSize]
    omega

theorem addresses_nodup {assembly : Assembly} (fits : assembly.Fits) {address : Nat} :
    ((assembly.program address).addresses address).Nodup := by
  induction assembly generalizing address with
  | stop => exact List.nodup_singleton address
  | points first positions rest ih =>
      refine List.nodup_cons.mpr ⟨?_, ih fits.2.2⟩
      intro again
      have := addresses_inside fits.2.2 _ again
      rw [pointsSize, pointsHeaderSize] at this
      omega
  | draw polygon rest ih =>
      refine List.nodup_cons.mpr ⟨?_, ih fits.2⟩
      intro again
      have := addresses_inside fits.2 _ again
      rw [polygonSize, polygonHeaderSize] at this
      omega
  | sort plane front back frontIH backIH =>
      exact sort_addresses_nodup fits.2.1 fits.2.2 (frontIH fits.2.1) (backIH fits.2.2)
  | call submodel offset callee ih => exact call_addresses_nodup fits.2.2 (ih fits.2.2)

end Assembly

end PaintOrder.Code
