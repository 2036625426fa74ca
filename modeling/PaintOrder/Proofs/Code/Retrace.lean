import Mathlib.Tactic.Tauto
import PaintOrder.Proofs.Code.Decoding
import PaintOrder.Proofs.Code.Walk

/-!
# Programs found by walks

A walk that comes to its end has gone through a program: the instructions that it read are the
program's, they stand where it marked them, and it did what the events of the program do.
-/

namespace PaintOrder.Code

/-- An event comes from an instruction that can be executed. -/
def Event.Legal : Event → Prop
  | .define .. => True
  | .draw _ _ polygon => 3 ≤ polygon.corners.length
  | .opened callee _ => 0 < callee

namespace Program

variable {data : Array UInt8} {program : Program} {address : Nat}

/-- The instructions of a program stand complete at an address and behind it, and the programs
at its jumps where these lead. -/
def Stands (data : Array UInt8) : Program → Nat → Prop
  | stop, address => Instruction.stop.Stands data address
  | points first positions rest, address =>
      (Instruction.points first positions).Stands data address ∧
        rest.Stands data (address + pointsSize positions.length)
  | draw polygon rest, address =>
      (Instruction.draw polygon).Stands data address ∧
        rest.Stands data
          (address + polygonSize polygon.corners.length polygon.surface.isTextured)
  | sort frontAt backAt front back rest, address =>
      (Instruction.sort frontAt backAt).Stands data address ∧
        front.Stands data frontAt ∧ back.Stands data backAt ∧
        rest.Stands data (address + sortSize)
  | call submodel offset target callee rest, address =>
      (Instruction.call submodel offset target).Stands data address ∧
        callee.Stands data target ∧ rest.Stands data (address + callSize)

/-- A program can be read where it stands if its events are those of instructions that can be
executed. -/
theorem laidOut_iff (caller : Nat) : program.LaidOut data address ↔
    program.Stands data address ∧ ∀ event ∈ program.events caller address, event.Legal := by
  induction program generalizing address caller with
  | stop => simp [LaidOut, Stands, events, Instruction.at_eq_ok_iff, Instruction.Legal]
  | points first positions rest ih =>
      rw [LaidOut, Stands, events, Instruction.at_eq_ok_iff, List.forall_mem_cons, ih caller]
      simp only [Instruction.Legal, Event.Legal]
      tauto
  | draw polygon rest ih =>
      rw [LaidOut, Stands, events, Instruction.at_eq_ok_iff, List.forall_mem_cons, ih caller]
      simp only [Instruction.Legal, Event.Legal]
      tauto
  | sort frontAt backAt front back rest frontIH backIH restIH =>
      rw [LaidOut, Stands, events, Instruction.at_eq_ok_iff, List.forall_mem_append,
        List.forall_mem_append, frontIH caller, backIH caller, restIH caller]
      simp only [Instruction.Legal]
      tauto
  | call submodel offset target callee rest calleeIH restIH =>
      rw [LaidOut, Stands, events, Instruction.at_eq_ok_iff, List.forall_mem_cons,
        List.forall_mem_append, calleeIH submodel, restIH caller]
      simp only [Instruction.Legal, Event.Legal]
      tauto

end Program

section Marks

theorem size_markAll (executed : Array Bool) (addresses : List Nat) :
    (markAll executed addresses).size = executed.size := by
  induction addresses generalizing executed with
  | nil => rfl
  | cons address rest ih => rw [markAll, ih, Array.size_setIfInBounds]

theorem getD_markAll_of_mem {executed : Array Bool} {addresses : List Nat} {address : Nat}
    (member : address ∈ addresses) (inside : address < executed.size) :
    (markAll executed addresses).getD address false = true := by
  induction addresses generalizing executed with
  | nil => cases member
  | cons marked rest ih =>
      rw [markAll]
      by_cases later : address ∈ rest
      · exact ih later (by rwa [Array.size_setIfInBounds])
      · obtain rfl := (List.mem_cons.mp member).resolve_right later
        rw [getD_markAll later]
        simp [Array.getD_eq_getD_getElem?, inside]

end Marks

/-- An execution has gone through instructions that were not reached before, and has done what
the given events do. -/
structure Went (addresses : List Nat) (events : List Event) (recovery result : Recovery) :
    Prop where
  inside : ∀ address ∈ addresses, address < recovery.executed.size
  once : addresses.Nodup
  fresh : ∀ address ∈ addresses, recovery.executed.getD address false = false
  performed : ∃ left, (Event.performAll events).run recovery = .ok () left ∧
    result = { left with executed := markAll recovery.executed addresses }

namespace Went

variable {addresses : List Nat} {events : List Event} {recovery middle result : Recovery}

theorem size_eq (went : Went addresses events recovery result) :
    result.executed.size = recovery.executed.size := by
  obtain ⟨left, _, rfl⟩ := went.performed
  exact size_markAll _ _

theorem mark {position : Nat} (inside : position < recovery.executed.size)
    (fresh : recovery.executed.getD position false = false) :
    Went [position] [] recovery (recovery.mark position) := by
  refine ⟨?_, List.nodup_singleton _, ?_, recovery, rfl, rfl⟩
  · simpa using inside
  · simpa using fresh

theorem event {event : Event} (performed : event.perform.run recovery = .ok () result) :
    Went [] [event] recovery result := by
  have unmarked := Event.perform_withExecuted recovery.executed performed
  have same : result = { result with executed := recovery.executed } :=
    (EStateM.Result.ok.inj (performed.symm.trans unmarked)).2
  exact ⟨nofun, List.nodup_nil, nofun, result,
    run_bind_eq_ok.mpr ⟨(), result, performed, rfl⟩, same⟩

theorem andThen {laterAddresses : List Nat} {laterEvents : List Event}
    (first : Went addresses events recovery middle)
    (later : Went laterAddresses laterEvents middle result) :
    Went (addresses ++ laterAddresses) (events ++ laterEvents) recovery result := by
  have size := first.size_eq
  obtain ⟨between, firstPerformed, rfl⟩ := first.performed
  obtain ⟨left, laterPerformed, rfl⟩ := later.performed
  -- an instruction that was marked before could not have been reached again
  have apart : ∀ address ∈ laterAddresses, address ∉ addresses := by
    intro address inLater inFirst
    have unmarked := later.fresh address inLater
    rw [getD_markAll_of_mem inFirst (first.inside address inFirst)] at unmarked
    cases unmarked
  refine ⟨?_, ?_, ?_, { left with executed := between.executed }, ?_, ?_⟩
  · intro address member
    rcases List.mem_append.mp member with inFirst | inLater
    · exact first.inside address inFirst
    · exact size ▸ later.inside address inLater
  · refine List.nodup_append.mpr ⟨first.once, later.once, ?_⟩
    rintro address inFirst _ inLater rfl
    exact apart address inLater inFirst
  · intro address member
    rcases List.mem_append.mp member with inFirst | inLater
    · exact first.fresh address inFirst
    · rw [← getD_markAll (apart address inLater)]
      exact later.fresh address inLater
  · have restored := Event.performAll_withExecuted between.executed laterPerformed
    exact Event.performAll_append_eq_ok.mpr ⟨between, firstPerformed, restored⟩
  · rw [markAll_append]

end Went

section Tracing

variable {data : Array UInt8} {levels submodel position : Nat}
  {recovery marked result : Recovery}

/-- An execution for a submodel has gone through a program at a position that nests no deeper
than it may. -/
def WentThrough (data : Array UInt8) (levels submodel position : Nat)
    (recovery result : Recovery) : Prop :=
  ∃ program : Program, program.LaidOut data position ∧ program.depth ≤ levels ∧
    Went (program.addresses position) (program.events submodel position) recovery result

/-- Walks from a position that come to their end have gone through a program there. -/
def Traceable (data : Array UInt8) (levels submodel position : Nat) : Prop :=
  ∀ recovery result : Recovery, recovery.executed.size = data.size →
    (Execution.walk data levels submodel position).run recovery = .ok () result →
      WentThrough data levels submodel position recovery result

namespace WentThrough

theorem stop (read : Instruction.at data position = .ok .stop)
    (here : Went [position] [] recovery marked) :
    WentThrough data levels submodel position recovery marked :=
  ⟨.stop, read, Nat.zero_le _, here⟩

theorem points {first : Nat} {positions : List FixedVector}
    (read : Instruction.at data position = .ok (.points first positions))
    (here : Went [position] [] recovery marked) (size : marked.executed.size = data.size)
    (next : Traceable data levels submodel (position + pointsSize positions.length))
    (ended : (Execution.follow data levels submodel position
      (.points first positions)).run marked = .ok () result) :
    WentThrough data levels submodel position recovery result := by
  obtain ⟨_, middle, defined, walked⟩ := run_bind_eq_ok.mp ended
  have did : Went [] [.define first positions] marked middle := .event defined
  obtain ⟨rest, restLaidOut, shallow, restWent⟩ :=
    next middle result (did.size_eq.trans size) walked
  exact ⟨.points first positions rest, ⟨read, restLaidOut⟩, shallow,
    (here.andThen did).andThen restWent⟩

theorem draw {polygon : Polygon}
    (read : Instruction.at data position = .ok (.draw polygon))
    (here : Went [position] [] recovery marked) (size : marked.executed.size = data.size)
    (next : Traceable data levels submodel
      (position + polygonSize polygon.corners.length polygon.surface.isTextured))
    (ended : (Execution.follow data levels submodel position (.draw polygon)).run marked =
      .ok () result) :
    WentThrough data levels submodel position recovery result := by
  obtain ⟨_, middle, drawn, walked⟩ := run_bind_eq_ok.mp ended
  have did : Went [] [.draw submodel position polygon] marked middle := .event drawn
  obtain ⟨rest, restLaidOut, shallow, restWent⟩ :=
    next middle result (did.size_eq.trans size) walked
  exact ⟨.draw polygon rest, ⟨read, restLaidOut⟩, shallow,
    (here.andThen did).andThen restWent⟩

/-- A sort goes through its branches with one level less, and then on behind it. -/
theorem sort {frontAt backAt : Nat}
    (read : Instruction.at data position = .ok (.sort frontAt backAt))
    (here : Went [position] [] recovery marked) (size : marked.executed.size = data.size)
    (branch : ∀ less start, less < levels → Traceable data less submodel start)
    (next : Traceable data levels submodel (position + sortSize))
    (ended : (Execution.follow data levels submodel position
      (.sort frontAt backAt)).run marked = .ok () result) :
    WentThrough data levels submodel position recovery result := by
  cases levels with
  | zero => cases ended
  | succ nested =>
      obtain ⟨_, behindFront, frontWalked, later⟩ := run_bind_eq_ok.mp ended
      obtain ⟨_, behindBack, backWalked, walked⟩ := run_bind_eq_ok.mp later
      obtain ⟨front, frontLaidOut, frontShallow, frontWent⟩ :=
        branch nested frontAt (Nat.lt_succ_self _) marked behindFront size frontWalked
      have frontSize := frontWent.size_eq.trans size
      obtain ⟨back, backLaidOut, backShallow, backWent⟩ :=
        branch nested backAt (Nat.lt_succ_self _) behindFront behindBack frontSize backWalked
      have backSize := backWent.size_eq.trans frontSize
      obtain ⟨rest, restLaidOut, shallow, restWent⟩ := next behindBack result backSize walked
      refine ⟨.sort frontAt backAt front back rest,
        ⟨read, frontLaidOut, backLaidOut, restLaidOut⟩, ?_,
        here.andThen (frontWent.andThen (backWent.andThen restWent))⟩
      rw [Program.depth]
      omega

/-- A call goes through the code of the submodel with one level less, and then on behind it. -/
theorem call {index target : Nat} {offset : FixedVector}
    (read : Instruction.at data position = .ok (.call index offset target))
    (here : Went [position] [] recovery marked) (size : marked.executed.size = data.size)
    (inside : ∀ less, less < levels → Traceable data less index target)
    (next : Traceable data levels submodel (position + callSize))
    (ended : (Execution.follow data levels submodel position
      (.call index offset target)).run marked = .ok () result) :
    WentThrough data levels submodel position recovery result := by
  obtain ⟨_, begun, opened, later⟩ := run_bind_eq_ok.mp ended
  let bucket : Bucket := { parent := some submodel, offset := offset, entry := target }
  have did : Went [] [.opened index bucket] marked begun := .event opened
  cases levels with
  | zero => cases later
  | succ nested =>
      obtain ⟨_, returned, calleeWalked, walked⟩ := run_bind_eq_ok.mp later
      have begunSize := did.size_eq.trans size
      obtain ⟨callee, calleeLaidOut, calleeShallow, calleeWent⟩ :=
        inside nested (Nat.lt_succ_self _) begun returned begunSize calleeWalked
      obtain ⟨rest, restLaidOut, shallow, restWent⟩ :=
        next returned result (calleeWent.size_eq.trans begunSize) walked
      refine ⟨.call index offset target callee rest, ⟨read, calleeLaidOut, restLaidOut⟩, ?_,
        (here.andThen did).andThen (calleeWent.andThen restWent)⟩
      rw [Program.depth]
      omega

end WentThrough

end Tracing

/-- A walk that comes to its end has gone through a program. -/
theorem Execution.exists_program_of_walk (data : Array UInt8) :
    ∀ levels submodel position, Traceable data levels submodel position := by
  refine walk_induction data ?_
  intro levels submodel position ahead shallower recovery result size ended
  rcases walk_cases data levels submodel position recovery with
    ⟨cause, stopped⟩ | ⟨cause, _, stopped⟩ | ⟨fresh, instruction, read, follows⟩
  · rw [stopped] at ended
    cases ended
  · rw [stopped] at ended
    cases ended
  rw [follows] at ended
  have inside := inside_of_at read
  have here : Went [position] [] recovery (recovery.mark position) :=
    .mark (by omega) fresh
  have marked := here.size_eq.trans size
  have next : Traceable data levels submodel (position + instruction.size) :=
    ahead _ (Nat.lt_add_of_pos_right instruction.size_pos) (by omega)
  cases instruction with
  | stop =>
      cases ended
      exact .stop read here
  | points first positions => exact .points read here marked next ended
  | draw polygon => exact .draw read here marked next ended
  | sort frontAt backAt =>
      exact .sort read here marked (fun less => shallower less submodel) next ended
  | call index offset target =>
      exact .call read here marked (fun less => shallower less index target) next ended

end PaintOrder.Code
