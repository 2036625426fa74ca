import Mathlib.Data.List.Nodup
import Mathlib.Order.Lattice
import PaintOrder.Proofs.Code.Assembly

/-!
# Walking through programs

An execution of a program whose instructions all stand at different positions goes through
them once.  If it may nest deeply enough, it leaves what the events leave; otherwise, if the
events are possible, it stops because it nests too deeply.
-/

namespace PaintOrder.Code

section Marks

/-- Marks instructions as reached. -/
def markAll (executed : Array Bool) : List Nat → Array Bool
  | [] => executed
  | address :: rest => markAll (executed.setIfInBounds address true) rest

theorem markAll_append (executed : Array Bool) (first second : List Nat) :
    markAll executed (first ++ second) = markAll (markAll executed first) second := by
  induction first generalizing executed with
  | nil => rfl
  | cons address rest ih => exact ih _

theorem getD_markAll {executed : Array Bool} {addresses : List Nat} {address : Nat}
    (absent : address ∉ addresses) :
    (markAll executed addresses).getD address false = executed.getD address false := by
  induction addresses generalizing executed with
  | nil => rfl
  | cons marked rest ih =>
      rw [List.mem_cons, not_or] at absent
      rw [markAll, ih absent.2]
      simp [Array.getD_eq_getD_getElem?, Ne.symm absent.1]

/-- What is known after an instruction was reached. -/
def Recovery.mark (recovery : Recovery) (position : Nat) : Recovery :=
  { recovery with executed := recovery.executed.setIfInBounds position true }

theorem Recovery.start_fresh (data : Array UInt8) (position : Nat) :
    (Recovery.start data).executed.getD position false = false := by
  simp only [Recovery.start, Array.getD_eq_getD_getElem?, Array.getElem?_replicate]
  split_ifs <;> rfl

end Marks

namespace Execution

variable {data : Array UInt8} {levels submodel position : Nat} {recovery result : Recovery}

theorem mark_run (fresh : recovery.executed.getD position false = false) :
    (mark position).run recovery = .ok () (recovery.mark position) := by
  rw [mark, run_get_bind, fresh]
  rfl

theorem mark_run_of_reached (reached : recovery.executed.getD position false = true) :
    (mark position).run recovery = .error (.format (.sharedBranch position)) recovery := by
  rw [mark, run_get_bind, reached]
  rfl

theorem inside_of_at {instruction : Instruction}
    (read : Instruction.at data position = .ok instruction) : position + 2 ≤ data.size := by
  rw [Instruction.at, bind_eq_ok] at read
  obtain ⟨_, required, _⟩ := read
  rw [liftM_format, mapError_eq_ok, require] at required
  split_ifs at required with inside
  exact inside

/-- What is left to do after an instruction was read. -/
def follow (data : Array UInt8) (levels submodel position : Nat) :
    Instruction → Execution Unit
  | .stop => pure ()
  | .points first positions => do
      define first positions
      walk data levels submodel (position + pointsSize positions.length)
  | .draw polygon => do
      draw submodel position polygon
      walk data levels submodel
        (position + polygonSize polygon.corners.length polygon.surface.isTextured)
  | .sort front back =>
      match levels with
      | 0 => fail (.tooDeep nestingLimit)
      | nested + 1 => do
          walk data nested submodel front
          walk data nested submodel back
          walk data (nested + 1) submodel (position + sortSize)
  | .call callee offset target => do
      openBucket callee { parent := some submodel, offset := offset, entry := target }
      match levels with
      | 0 => fail (.tooDeep nestingLimit)
      | nested + 1 =>
          walk data nested callee target
          walk data (nested + 1) submodel (position + callSize)

/-- A walk marks the instruction where it is and follows it. -/
theorem walk_run {instruction : Instruction}
    (read : Instruction.at data position = .ok instruction)
    (fresh : recovery.executed.getD position false = false) :
    (walk data levels submodel position).run recovery =
      (follow data levels submodel position instruction).run (recovery.mark position) := by
  rw [walk, dif_pos (inside_of_at read), run_bind_of_ok (mark_run fresh), read]
  cases instruction <;> rfl

theorem walk_run_of_truncated (outside : data.size < position + 2) :
    (walk data levels submodel position).run recovery =
      .error (.format (.truncated position)) recovery := by
  rw [walk, dif_neg (Nat.not_le_of_lt outside)]
  rfl

theorem walk_run_of_reached (inside : position + 2 ≤ data.size)
    (reached : recovery.executed.getD position false = true) :
    (walk data levels submodel position).run recovery =
      .error (.format (.sharedBranch position)) recovery := by
  rw [walk, dif_pos inside, run_bind_of_error (mark_run_of_reached reached)]

theorem walk_run_of_unread {cause : Error} (inside : position + 2 ≤ data.size)
    (fresh : recovery.executed.getD position false = false)
    (unread : Instruction.at data position = .error cause) :
    (walk data levels submodel position).run recovery =
      .error cause (recovery.mark position) := by
  rw [walk, dif_pos inside, run_bind_of_ok (mark_run fresh), unread]
  rfl

/-- A walk stops where it is, at no instruction or at one that it knows, or it marks the
instruction and then cannot read it, or it follows it. -/
theorem walk_cases (data : Array UInt8) (levels submodel position : Nat) (recovery : Recovery) :
    (∃ cause, (walk data levels submodel position).run recovery =
      .error (.format cause) recovery) ∨
    (∃ cause, Instruction.at data position = .error cause ∧
      (walk data levels submodel position).run recovery =
        .error cause (recovery.mark position)) ∨
    (recovery.executed.getD position false = false ∧
      ∃ instruction, Instruction.at data position = .ok instruction ∧
        (walk data levels submodel position).run recovery =
          (follow data levels submodel position instruction).run (recovery.mark position)) := by
  rcases Nat.lt_or_ge data.size (position + 2) with outside | inside
  · exact .inl ⟨_, walk_run_of_truncated outside⟩
  · cases marked : recovery.executed.getD position false with
    | true => exact .inl ⟨_, walk_run_of_reached inside marked⟩
    | false =>
        cases read : Instruction.at data position with
        | error cause => exact .inr (.inl ⟨cause, rfl, walk_run_of_unread inside marked read⟩)
        | ok instruction => exact .inr (.inr ⟨rfl, instruction, rfl, walk_run read marked⟩)

/-- To prove something of all walks, it may be assumed of those that start further on and of
those that nest less deeply. -/
theorem walk_induction (data : Array UInt8) {claim : (levels submodel position : Nat) → Prop}
    (step : ∀ levels submodel position,
      (∀ next, position < next → position < data.size → claim levels submodel next) →
      (∀ less other start, less < levels → claim less other start) →
        claim levels submodel position) :
    ∀ levels submodel position, claim levels submodel position := by
  intro levels
  induction levels using Nat.strong_induction_on with
  | _ levels shallower =>
      intro submodel
      have deeper : ∀ less other start, less < levels → claim less other start :=
        fun less other start fewer => shallower less fewer other start
      have onward : ∀ left position, data.size - position ≤ left →
          claim levels submodel position := by
        intro left
        induction left with
        | zero =>
            intro position atEnd
            refine step levels submodel position ?_ deeper
            intro next _ inside
            omega
        | succ left ih =>
            intro position near
            refine step levels submodel position ?_ deeper
            intro next ahead inside
            exact ih next (by omega)
      intro position
      exact onward _ position (Nat.le_refl _)

end Execution

/-- How an execution ends that needs some depth of nesting: with a result, or because it may
not nest deeply enough. -/
def Ends (levels depth : Nat) (outcome : EStateM.Result Error Recovery Unit)
    (result : Recovery) : Prop :=
  if depth ≤ levels then outcome = .ok () result
  else ∃ left, outcome = .error (.format (.tooDeep nestingLimit)) left

namespace Ends

variable {levels depth : Nat}

theorem of_eq {outcome : EStateM.Result Error Recovery Unit} {result : Recovery}
    (same : outcome = .ok () result) : Ends levels 0 outcome result := by
  rw [Ends, if_pos (Nat.zero_le _)]
  exact same

theorem nested {outcome : EStateM.Result Error Recovery Unit} {result : Recovery}
    (inner : Ends levels depth outcome result) :
    Ends (levels + 1) (depth + 1) outcome result := by
  simpa only [Ends, Nat.add_le_add_iff_right] using inner

theorem too_deep {start result : Recovery} (positive : 0 < depth) :
    Ends 0 depth ((Execution.fail (.tooDeep nestingLimit) : Execution Unit).run start)
      result := by
  rw [Ends, if_neg (by omega)]
  exact ⟨start, rfl⟩

/-- Of two executions in a row, both have to be possible. -/
theorem andThen {first second : Execution Unit} {start between result : Recovery}
    {firstDepth secondDepth : Nat}
    (firstEnds : Ends levels firstDepth (first.run start) between)
    (secondEnds : Ends levels secondDepth (second.run between) result) :
    Ends levels (max firstDepth secondDepth)
      ((do first; second : Execution Unit).run start) result := by
  by_cases firstFits : firstDepth ≤ levels
  · rw [Ends, if_pos firstFits] at firstEnds
    rw [run_bind_of_ok firstEnds]
    by_cases secondFits : secondDepth ≤ levels
    · rw [Ends, if_pos secondFits] at secondEnds
      rw [Ends, if_pos (max_le firstFits secondFits)]
      exact secondEnds
    · rw [Ends, if_neg secondFits] at secondEnds
      rw [Ends, if_neg (fun fits => secondFits (le_trans (le_max_right _ _) fits))]
      exact secondEnds
  · rw [Ends, if_neg firstFits] at firstEnds
    obtain ⟨left, failed⟩ := firstEnds
    rw [Ends, if_neg (fun fits => firstFits (le_trans (le_max_left _ _) fits))]
    exact ⟨left, run_bind_of_error failed⟩

end Ends

/-- An execution goes through the given events and marks the given instructions, provided
that the events are possible and the instructions are new. -/
def Realizes (levels depth : Nat) (addresses : List Nat) (events : List Event)
    (execution : Execution Unit) : Prop :=
  ∀ recovery result : Recovery,
    (∀ address ∈ addresses, recovery.executed.getD address false = false) →
    (Event.performAll events).run recovery = .ok () result →
    Ends levels depth (execution.run recovery)
      { result with executed := markAll recovery.executed addresses }

namespace Realizes

variable {data : Array UInt8} {levels depth position submodel : Nat} {addresses : List Nat}
  {events : List Event}

theorem nothing : Realizes levels 0 [] [] (pure ()) := by
  intro recovery result _ performed
  cases performed
  exact .of_eq rfl

theorem event (event : Event) : Realizes levels 0 [] [event] event.perform := by
  intro recovery result _ performed
  rw [Event.performAll, run_bind_eq_ok] at performed
  obtain ⟨_, between, done, rest⟩ := performed
  cases rest
  apply Ends.of_eq
  simpa [markAll] using Event.perform_withExecuted recovery.executed done

theorem too_deep (positive : 0 < depth) :
    Realizes 0 depth addresses events (Execution.fail (.tooDeep nestingLimit)) := by
  intro recovery result _ _
  exact .too_deep positive

theorem nested {execution : Execution Unit}
    (inner : Realizes levels depth addresses events execution) :
    Realizes (levels + 1) (depth + 1) addresses events execution := by
  intro recovery result fresh performed
  exact (inner recovery result fresh performed).nested

theorem andThen {first second : Execution Unit} {firstDepth secondDepth : Nat}
    {firstAddresses secondAddresses : List Nat} {firstEvents secondEvents : List Event}
    (firstRealizes : Realizes levels firstDepth firstAddresses firstEvents first)
    (secondRealizes : Realizes levels secondDepth secondAddresses secondEvents second)
    (distinct : (firstAddresses ++ secondAddresses).Nodup) :
    Realizes levels (max firstDepth secondDepth) (firstAddresses ++ secondAddresses)
      (firstEvents ++ secondEvents) (do first; second) := by
  intro recovery result fresh performed
  obtain ⟨between, firstPerformed, secondPerformed⟩ :=
    Event.performAll_append_eq_ok.mp performed
  have firstEnds := firstRealizes recovery between
    (fun address member => fresh address (by simp [member])) firstPerformed
  have secondFresh : ∀ address ∈ secondAddresses,
      (markAll recovery.executed firstAddresses).getD address false = false := by
    intro address member
    have apart : address ∉ firstAddresses := fun other =>
      (List.nodup_append.mp distinct).2.2 address other address member rfl
    rw [getD_markAll apart]
    exact fresh address (by simp [member])
  have secondEnds := secondRealizes _ _ secondFresh
    (Event.performAll_withExecuted (markAll recovery.executed firstAddresses) secondPerformed)
  rw [markAll_append]
  exact firstEnds.andThen secondEnds

/-- An event in front of an execution nests nothing. -/
theorem andAfter {execution : Execution Unit}
    (rest : Realizes levels depth addresses events execution) (distinct : addresses.Nodup)
    (first : Event) :
    Realizes levels depth addresses (first :: events) (do first.perform; execution) := by
  have both := (event first).andThen rest distinct
  rwa [Nat.zero_max] at both

theorem walk {instruction : Instruction}
    (read : Instruction.at data position = .ok instruction)
    (absent : position ∉ addresses)
    (rest : Realizes levels depth addresses events
      (Execution.follow data levels submodel position instruction)) :
    Realizes levels depth (position :: addresses) events
      (Execution.walk data levels submodel position) := by
  intro recovery result fresh performed
  rw [Execution.walk_run read (fresh position (by simp))]
  have stillFresh : ∀ address ∈ addresses,
      (recovery.executed.setIfInBounds position true).getD address false = false := by
    intro address member
    have apart : address ∉ [position] := by
      rintro (_ | ⟨_, ⟨⟩⟩)
      exact absent member
    have same : (markAll recovery.executed [position]).getD address false = _ :=
      getD_markAll apart
    rw [markAll, markAll] at same
    rw [same]
    exact fresh address (by simp [member])
  have ended := rest _ _ stillFresh
    (Event.performAll_withExecuted (recovery.executed.setIfInBounds position true) performed)
  exact ended

/-- A sort goes through both branches, one level deeper, and then on behind it. -/
theorem sort {frontAt backAt : Nat} {front back rest : Program}
    (frontRealizes : ∀ inner, Realizes inner front.depth (front.addresses frontAt)
      (front.events submodel frontAt) (Execution.walk data inner submodel frontAt))
    (backRealizes : ∀ inner, Realizes inner back.depth (back.addresses backAt)
      (back.events submodel backAt) (Execution.walk data inner submodel backAt))
    (restRealizes : ∀ inner, Realizes inner rest.depth (rest.addresses (position + sortSize))
      (rest.events submodel (position + sortSize))
      (Execution.walk data inner submodel (position + sortSize)))
    (distinct : (front.addresses frontAt ++ (back.addresses backAt ++
      rest.addresses (position + sortSize))).Nodup) :
    Realizes levels (Program.sort frontAt backAt front back rest).depth
      (front.addresses frontAt ++ (back.addresses backAt ++
        rest.addresses (position + sortSize)))
      ((Program.sort frontAt backAt front back rest).events submodel position)
      (Execution.follow data levels submodel position (.sort frontAt backAt)) := by
  cases levels with
  | zero =>
      apply too_deep
      rw [Program.depth]
      omega
  | succ inner =>
      have later := (backRealizes inner).nested.andThen (restRealizes (inner + 1))
        distinct.of_append_right
      exact (frontRealizes inner).nested.andThen later distinct

/-- A call opens a submodel, goes through its code, one level deeper, and then on behind it. -/
theorem call {index target : Nat} {offset : FixedVector} {callee rest : Program}
    (calleeRealizes : ∀ inner, Realizes inner callee.depth (callee.addresses target)
      (callee.events index target) (Execution.walk data inner index target))
    (restRealizes : ∀ inner, Realizes inner rest.depth (rest.addresses (position + callSize))
      (rest.events submodel (position + callSize))
      (Execution.walk data inner submodel (position + callSize)))
    (distinct : (callee.addresses target ++ rest.addresses (position + callSize)).Nodup) :
    Realizes levels (Program.call index offset target callee rest).depth
      (callee.addresses target ++ rest.addresses (position + callSize))
      ((Program.call index offset target callee rest).events submodel position)
      (Execution.follow data levels submodel position (.call index offset target)) := by
  let opening : Event :=
    .opened index { parent := some submodel, offset := offset, entry := target }
  cases levels with
  | zero =>
      have stops : Realizes 0 (max (callee.depth + 1) rest.depth)
          (callee.addresses target ++ rest.addresses (position + callSize))
          (callee.events index target ++ rest.events submodel (position + callSize)) _ :=
        too_deep (by omega)
      exact stops.andAfter distinct opening
  | succ inner =>
      have called := (calleeRealizes inner).nested.andThen (restRealizes (inner + 1)) distinct
      exact called.andAfter distinct opening

/-- Walking through a program goes through its events and marks its instructions. -/
theorem program {program : Program} (laidOut : program.LaidOut data position)
    (distinct : (program.addresses position).Nodup) :
    Realizes levels program.depth (program.addresses position)
      (program.events submodel position) (Execution.walk data levels submodel position) := by
  induction program generalizing levels submodel position with
  | stop => exact .walk laidOut (by simp) .nothing
  | points first positions rest ih =>
      obtain ⟨read, restLaidOut⟩ := laidOut
      obtain ⟨absent, restDistinct⟩ := List.nodup_cons.mp distinct
      have restRealizes : Realizes levels rest.depth _ (rest.events submodel _) _ :=
        ih restLaidOut restDistinct
      exact .walk read absent (restRealizes.andAfter restDistinct (.define first positions))
  | draw polygon rest ih =>
      obtain ⟨read, restLaidOut⟩ := laidOut
      obtain ⟨absent, restDistinct⟩ := List.nodup_cons.mp distinct
      have restRealizes : Realizes levels rest.depth _ (rest.events submodel _) _ :=
        ih restLaidOut restDistinct
      exact .walk read absent
        (restRealizes.andAfter restDistinct (.draw submodel position polygon))
  | sort frontAt backAt front back rest frontIH backIH restIH =>
      obtain ⟨read, frontLaidOut, backLaidOut, restLaidOut⟩ := laidOut
      obtain ⟨absent, innerDistinct⟩ := List.nodup_cons.mp distinct
      have laterDistinct := innerDistinct.of_append_right
      exact .walk read absent (.sort
        (fun _ => frontIH frontLaidOut innerDistinct.of_append_left)
        (fun _ => backIH backLaidOut laterDistinct.of_append_left)
        (fun _ => restIH restLaidOut laterDistinct.of_append_right) innerDistinct)
  | call index offset target callee rest calleeIH restIH =>
      obtain ⟨read, calleeLaidOut, restLaidOut⟩ := laidOut
      obtain ⟨absent, innerDistinct⟩ := List.nodup_cons.mp distinct
      exact .walk read absent (.call
        (fun _ => calleeIH calleeLaidOut innerDistinct.of_append_left)
        (fun _ => restIH restLaidOut innerDistinct.of_append_right) innerDistinct)

end Realizes

theorem Execution.fromEntry_run (data : Array UInt8) (entry : Nat) (recovery : Recovery) :
    (Execution.fromEntry data entry).run recovery =
      (Execution.walk data nestingLimit 0 entry).run
        { recovery with buckets := #[some { entry := entry }] } :=
  rfl

/-- Executing a piece of code from where it stands goes through its program, if the events of
the program are possible. -/
theorem Assembly.fromEntry_ends {data : Array UInt8} {assembly : Assembly}
    (fits : assembly.Fits) {entry : Nat} (holds : Holds data entry assembly.code)
    {recovery : Recovery}
    (performed : (Event.performAll ((assembly.program entry).events 0 entry)).run
      { Recovery.start data with buckets := #[some { entry := entry }] } = .ok () recovery) :
    Ends nestingLimit assembly.depth
      ((Execution.fromEntry data entry).run (.start data))
      { recovery with
        executed := markAll (Recovery.start data).executed
          ((assembly.program entry).addresses entry) } := by
  have realizes : Realizes nestingLimit (assembly.program entry).depth _
      ((assembly.program entry).events 0 entry) (Execution.walk data nestingLimit 0 entry) :=
    .program (assembly.laidOut fits holds) (assembly.addresses_nodup fits)
  rw [program_depth] at realizes
  rw [Execution.fromEntry_run]
  apply realizes _ _ ?_ performed
  intro address _
  exact Recovery.start_fresh data address

end PaintOrder.Code
