import Mathlib.Tactic.SplitIfs
import PaintOrder.Code.Execution
import PaintOrder.Proofs.Outcome

/-!
# Programs in byte strings

A program is code as an execution finds it: instructions one after the other up to the end
of a branch, with the programs of both branches at every sort and that of the submodel at
every call.  Executing code does two things: it finds its way, which only depends on where
the instructions stand, and it recovers geometry, which is a sequence of events.
-/

namespace PaintOrder.Code

/-- Code with the programs at its jumps and where they start. -/
inductive Program where
  | stop
  | points (first : Nat) (positions : List FixedVector) (rest : Program)
  | draw (polygon : Polygon) (rest : Program)
  | sort (frontAt backAt : Nat) (front back rest : Program)
  | call (submodel : Nat) (offset : FixedVector) (target : Nat) (callee rest : Program)

/-- What an execution does about geometry. -/
inductive Event where
  /-- Points are defined from a number on. -/
  | define (first : Nat) (positions : List FixedVector)
  /-- The polygon at a position is drawn for a submodel. -/
  | draw (submodel position : Nat) (polygon : Polygon)
  | opened (submodel : Nat) (bucket : Bucket)

namespace Event

def perform : Event → Execution Unit
  | define first positions => Execution.define first positions
  | draw submodel position polygon => Execution.draw submodel position polygon
  | opened submodel bucket => Execution.openBucket submodel bucket

def performAll : List Event → Execution Unit
  | [] => pure ()
  | event :: rest => do
      event.perform
      performAll rest

variable {recovery result : Recovery}

theorem performAll_append_eq_ok {first second : List Event} :
    (performAll (first ++ second)).run recovery = .ok () result ↔
      ∃ between, (performAll first).run recovery = .ok () between ∧
        (performAll second).run between = .ok () result := by
  induction first generalizing recovery with
  | nil =>
      constructor
      · intro performed
        exact ⟨recovery, rfl, performed⟩
      · rintro ⟨between, ⟨⟩, performed⟩
        exact performed
  | cons event rest ih =>
      simp only [List.cons_append, performAll, run_bind_eq_ok, ih]
      constructor
      · rintro ⟨⟨⟩, middle, done, between, restDone, performed⟩
        exact ⟨between, ⟨⟨⟩, middle, done, restDone⟩, performed⟩
      · rintro ⟨between, ⟨⟨⟩, middle, done, restDone⟩, performed⟩
        exact ⟨⟨⟩, middle, done, between, restDone, performed⟩

theorem perform_draw_eq_ok {submodel position : Nat} {polygon : Polygon} :
    (draw submodel position polygon).perform.run recovery = .ok () result ↔
      ∃ face, Execution.faceOf recovery.points position polygon = .ok face ∧
        (Execution.addFace submodel face).run recovery = .ok () result := by
  rw [perform, Execution.draw, run_get_bind]
  cases Execution.faceOf recovery.points position polygon with
  | error cause => simp [Execution.fail]
  | ok face => simp

/-- A submodel is called if it was not called before. -/
theorem perform_opened_eq_ok {submodel : Nat} {bucket : Bucket} :
    (opened submodel bucket).perform.run recovery = .ok () result ↔
      (recovery.buckets[submodel]?).join = none ∧
        result =
          { recovery with
            buckets := (recovery.buckets ++
              Array.replicate (submodel + 1 - recovery.buckets.size) none).setIfInBounds
                submodel (some bucket) } := by
  rw [perform, Execution.openBucket, run_get_bind]
  cases (recovery.buckets[submodel]?).join with
  | some known => simp [Execution.fail]
  | none => simp [eq_comm]

/-- An event neither looks at nor changes which instructions were reached. -/
theorem perform_withExecuted {event : Event} (executed : Array Bool)
    (performed : event.perform.run recovery = .ok () result) :
    event.perform.run { recovery with executed := executed } =
      .ok () { result with executed := executed } := by
  cases event with
  | define first positions =>
      cases performed
      rfl
  | draw submodel position polygon =>
      obtain ⟨face, made, added⟩ := perform_draw_eq_ok.mp performed
      cases added
      exact perform_draw_eq_ok.mpr ⟨face, made, rfl⟩
  | opened submodel bucket =>
      obtain ⟨closed, rfl⟩ := perform_opened_eq_ok.mp performed
      exact perform_opened_eq_ok.mpr ⟨closed, rfl⟩

theorem performAll_withExecuted {events : List Event} (executed : Array Bool)
    (performed : (performAll events).run recovery = .ok () result) :
    (performAll events).run { recovery with executed := executed } =
      .ok () { result with executed := executed } := by
  induction events generalizing recovery with
  | nil =>
      cases performed
      rfl
  | cons event rest ih =>
      rw [performAll, run_bind_eq_ok] at performed ⊢
      obtain ⟨_, middle, done, restDone⟩ := performed
      exact ⟨_, _, perform_withExecuted executed done, ih restDone⟩

end Event

/-- Room that is made for more does not count as something stored. -/
theorem join_getElem?_padded {α : Type} (stored : Array (Option α)) (count index : Nat) :
    ((stored ++ Array.replicate count none)[index]?).join = (stored[index]?).join := by
  rw [Array.getElem?_append]
  split_ifs with old
  · rfl
  · rw [Array.getElem?_eq_none (Nat.le_of_not_lt old), Array.getElem?_replicate]
    split_ifs <;> rfl

/-- A vertex has the texture coordinates of its corner. -/
theorem Execution.uv_of_vertexOf {points : Array (Option FixedVector)} {position : Nat}
    {corner : Corner} {vertex : Vertex}
    (placed : Execution.vertexOf points position corner = .ok vertex) :
    vertex.uv = corner.uv := by
  rw [Execution.vertexOf] at placed
  split at placed
  · exact congrArg Vertex.uv (Except.ok.inj placed).symm
  · cases placed

namespace Program

/-- A program starts at an address of a byte string: its instructions stand there one after
the other, and its jumps lead to where their programs start. -/
def LaidOut (data : Array UInt8) : Program → Nat → Prop
  | stop, address => Instruction.at data address = .ok .stop
  | points first positions rest, address =>
      Instruction.at data address = .ok (.points first positions) ∧
        rest.LaidOut data (address + pointsSize positions.length)
  | draw polygon rest, address =>
      Instruction.at data address = .ok (.draw polygon) ∧
        rest.LaidOut data
          (address + polygonSize polygon.corners.length polygon.surface.isTextured)
  | sort frontAt backAt front back rest, address =>
      Instruction.at data address = .ok (.sort frontAt backAt) ∧
        front.LaidOut data frontAt ∧ back.LaidOut data backAt ∧
        rest.LaidOut data (address + sortSize)
  | call submodel offset target callee rest, address =>
      Instruction.at data address = .ok (.call submodel offset target) ∧
        callee.LaidOut data target ∧ rest.LaidOut data (address + callSize)

instance decidableLaidOut (data : Array UInt8) :
    (program : Program) → (address : Nat) → Decidable (program.LaidOut data address)
  | stop, _ => inferInstanceAs (Decidable (_ = _))
  | points _ _ rest, _ =>
      have := decidableLaidOut data rest
      inferInstanceAs (Decidable (_ ∧ _))
  | draw _ rest, _ =>
      have := decidableLaidOut data rest
      inferInstanceAs (Decidable (_ ∧ _))
  | sort _ _ front back rest, _ =>
      have := decidableLaidOut data front
      have := decidableLaidOut data back
      have := decidableLaidOut data rest
      inferInstanceAs (Decidable (_ ∧ _))
  | call _ _ _ callee rest, _ =>
      have := decidableLaidOut data callee
      have := decidableLaidOut data rest
      inferInstanceAs (Decidable (_ ∧ _))

/-- The addresses of all instructions, in the order in which they are executed. -/
def addresses : Program → Nat → List Nat
  | stop, address => [address]
  | points _ positions rest, address =>
      address :: rest.addresses (address + pointsSize positions.length)
  | draw polygon rest, address =>
      address :: rest.addresses
        (address + polygonSize polygon.corners.length polygon.surface.isTextured)
  | sort frontAt backAt front back rest, address =>
      address :: (front.addresses frontAt ++ (back.addresses backAt ++
        rest.addresses (address + sortSize)))
  | call _ _ target callee rest, address =>
      address :: (callee.addresses target ++ rest.addresses (address + callSize))

def depth : Program → Nat
  | stop => 0
  | points _ _ rest => rest.depth
  | draw _ rest => rest.depth
  | sort _ _ front back rest => max (front.depth + 1) (max (back.depth + 1) rest.depth)
  | call _ _ _ callee rest => max (callee.depth + 1) rest.depth

/-- What the execution of a program does about geometry, for a submodel, in order. -/
def events (submodel : Nat) : Program → Nat → List Event
  | stop, _ => []
  | points first positions rest, address =>
      .define first positions :: rest.events submodel (address + pointsSize positions.length)
  | draw polygon rest, address =>
      .draw submodel address polygon :: rest.events submodel
        (address + polygonSize polygon.corners.length polygon.surface.isTextured)
  | sort frontAt backAt front back rest, address =>
      front.events submodel frontAt ++ (back.events submodel backAt ++
        rest.events submodel (address + sortSize))
  | call index offset target callee rest, address =>
      .opened index { parent := some submodel, offset := offset, entry := target } ::
        (callee.events index target ++ rest.events submodel (address + callSize))

end Program

end PaintOrder.Code
