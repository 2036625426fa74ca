import PaintOrder.Proofs.Code.Links
import PaintOrder.Proofs.Code.Retrace
import PaintOrder.Proofs.Code.Safety
import PaintOrder.Proofs.Model.RoundTrip
import PaintOrder.Proofs.Partition.Validity

/-!
# Compiled code is covered by its instructions

Compiled code is nothing but instructions, one right behind the other.  The compiler links
them so that executing the root comes to each of them once: no byte is out of reach, none
belongs to two instructions, and none to two branches.
-/

namespace PaintOrder

open Code

/-- The plane between two points always has a direction. -/
theorem Plane.halfway_directed (near far : FixedVector) :
    (halfway near far).isDegenerate = false := by
  rw [halfway, isDegenerate]
  split
  · rfl
  · dsimp only
    split_ifs with vanishes
    · rfl
    · exact Bool.eq_false_of_not_eq_true vanishes

namespace Code

variable {data : Array UInt8} {starts : List Nat}

/-- Executing the root from the start of the code executes the instructions that start at some
positions, each of them once, and no others. -/
def ExecutesOnce (data : Array UInt8) (starts : List Nat) : Prop :=
  ∃ result trace, (Execution.fromEntry data 0).run (.start data) = .ok () result ∧
    (Checked.fromEntry data 0).run (.start data) = .ok () trace ∧
    trace.recovery = result ∧ trace.dispatched.Perm starts

/-- An execution that ends well has dispatched exactly what it has marked. -/
theorem executesOnce_of_marked (addressable : Checked.Addressable data)
    {result : Recovery} (ran : (Execution.fromEntry data 0).run (.start data) = .ok () result)
    (distinct : starts.Nodup)
    (marked : ∀ position, result.executed.getD position false = true ↔ position ∈ starts) :
    ExecutesOnce data starts := by
  have agrees :=
    Checked.fromEntry_agrees addressable (Checked.Trace.start_sound data) 0
  have same : (Execution.fromEntry data 0).run (Checked.Trace.start data).recovery =
      .ok () result := ran
  rw [same] at agrees
  generalize checkedRan : (Checked.fromEntry data 0).run (.start data) = checked at agrees
  cases agrees with
  | @ok trace kept =>
      refine ⟨_, trace, ran, checkedRan, rfl, ?_⟩
      rw [List.perm_ext_iff_of_nodup kept.sound.once distinct]
      intro position
      rw [kept.sound.marked, marked]

end Code

namespace Model

variable {limit scratchSize : Nat} {select : Selector} {model compiled : Model}
  {rest : Assembly} {finish : Nat}

theorem Nested.directed {owner base first finish : Nat} {order : List Nat} {code : Assembly}
    (nested : Nested limit select model owner base order first code finish) :
    code.Directed := by
  induction nested with
  | own built writable =>
      apply Assembly.ofPartition_directed
      intro tree rooted
      exact Partition.directed_of_build built rooted
  | nest callee later calleeIH laterIH =>
      exact ⟨Plane.halfway_directed _ _, calleeIH, laterIH⟩

namespace Compiled

theorem addressable (result : Compiled limit select model compiled rest finish) :
    Checked.Addressable compiled.data := by
  have small := result.size_le
  rw [maxWord] at small
  rw [Checked.Addressable, maxWord]
  omega

/-- The code of the root, read back to back, ends where the bytes end. -/
theorem disassemble_eq (result : Compiled limit select model compiled rest finish) :
    disassemble compiled.data 0 =
      .ok ((model.submodelCode limit select 0 0 rest).instructions 0) := by
  have lies := Assembly.backToBack result.fits (Assembly.laidOut result.fits result.holds)
  have whole : 0 + (model.submodelCode limit select 0 0 rest).code.length =
      compiled.data.size := by
    rw [Nat.zero_add, ← result.data_eq, Array.length_toList]
  rw [whole] at lies
  exact lies.disassemble_eq

/-- Code that does not nest too deeply is executed to its end. -/
theorem exists_run (result : Compiled limit select model compiled rest finish)
    (shallow : rest.depth ≤ nestingLimit) :
    ∃ recovery, (Execution.fromEntry compiled.data 0).run (.start compiled.data) =
      .ok () recovery := by
  obtain ⟨recovery, performed, _⟩ := result.recovers
  have ends := Assembly.fromEntry_ends result.fits result.holds performed
  rw [Ends, if_pos (by exact shallow)] at ends
  exact ⟨_, ends⟩

theorem executesOnce (result : Compiled limit select model compiled rest finish) :
    (∃ left, (Execution.fromEntry compiled.data 0).run (.start compiled.data) =
      .error (.format (.tooDeep nestingLimit)) left) ∨
    ExecutesOnce compiled.data
      (((model.submodelCode limit select 0 0 rest).instructions 0).map Prod.fst) := by
  let code := model.submodelCode limit select 0 0 rest
  obtain ⟨recovery, performed, _⟩ := result.recovers
  have ends := Assembly.fromEntry_ends result.fits result.holds performed
  by_cases shallow : code.depth ≤ nestingLimit
  · rw [Ends, if_pos shallow] at ends
    have perm := code.starts_perm 0
    have distinct : ((code.program 0).addresses 0).Nodup := Assembly.addresses_nodup result.fits
    refine .inr (executesOnce_of_marked result.addressable ends
      (perm.nodup_iff.mpr distinct) ?_)
    intro position
    rw [perm.mem_iff]
    by_cases member : position ∈ (code.program 0).addresses 0
    · have inside : position < (Recovery.start compiled.data).executed.size := by
        have bounds := Assembly.addresses_inside result.fits position member
        have whole := Assembly.size_le_of_holds result.holds
        rw [Recovery.start, Array.size_replicate]
        omega
      exact iff_of_true (getD_markAll_of_mem member inside) member
    · rw [getD_markAll member, Recovery.start_fresh]
      exact iff_of_false Bool.false_ne_true member
  · rw [Ends, if_neg shallow] at ends
    exact .inl ends

end Compiled

/-- Compiled code is a list of instructions back to back that ends where the bytes end.  Every
sort has a normal, and its branches start at instructions behind it, the front one right
behind its stop; every call leads right behind its own stop.  Unless it nests too deeply,
executing the root executes exactly the instructions of the list, each of them once. -/
theorem compiled_code_is_covered
    (succeeds : model.compileWith limit scratchSize select = .ok compiled) :
    ∃ instructions, disassemble compiled.data 0 = .ok instructions ∧
      (∀ entry ∈ instructions, Linked compiled.data (instructions.map Prod.fst) entry) ∧
      ((∃ left, (Execution.fromEntry compiled.data 0).run (.start compiled.data) =
          .error (.format (.tooDeep nestingLimit)) left) ∨
        ExecutesOnce compiled.data (instructions.map Prod.fst)) := by
  obtain ⟨rest, finish, result⟩ := compileWith_eq_ok succeeds
  have directed : (model.submodelCode limit select 0 0 rest).Directed := result.nested.directed
  refine ⟨_, result.disassemble_eq, ?_, result.executesOnce⟩
  apply Assembly.linked result.fits directed result.holds
  intro place member
  exact member

/-- The code of rooms of a floor and a wall is executed from its first instruction to its last,
each of them once. -/
theorem crossedRooms_are_covered : ∃ compiled instructions,
    crossedRooms.compile 3 {} = .ok compiled ∧
      disassemble compiled.data 0 = .ok instructions ∧
      (∀ entry ∈ instructions, Linked compiled.data (instructions.map Prod.fst) entry) ∧
      ExecutesOnce compiled.data (instructions.map Prod.fst) := by
  obtain ⟨compiled, succeeds⟩ := crossedRooms_compiles
  obtain ⟨rest, finish, result⟩ := compileWith_eq_ok succeeds
  obtain ⟨recovery, ran⟩ := result.exists_run (crossedRooms_shallow result)
  obtain ⟨instructions, disassembled, linked, ⟨left, tooDeep⟩ | once⟩ :=
    compiled_code_is_covered succeeds
  · rw [ran] at tooDeep
    cases tooDeep
  · exact ⟨compiled, instructions, succeeds, disassembled, linked, once⟩

end Model

end PaintOrder
