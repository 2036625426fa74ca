import PaintOrder.Proofs.Code.SafeReading
import PaintOrder.Proofs.Code.Walk

/-!
# Steps are safe

A record of the work is sound if it agrees with the marks: what was dispatched is what is
marked, and no more faces were produced than instructions dispatched.  Every step of a checked
execution keeps the record sound, and does what the unchecked step does.
-/

namespace PaintOrder.Code.Checked

section State

variable {data : Array UInt8} {trace : Trace} {position submodel : Nat} {α β : Type}

theorem run_check_of_ok {check : Except Halt α} {value : α} (passes : check = .ok value)
    (next : α → Checking β) :
    ((liftM check : Checking α) >>= next).run trace = (next value).run trace := by
  rw [passes]
  rfl

theorem run_check_of_error {check : Except Halt α} {halt : Halt} (fails : check = .error halt)
    (next : α → Checking β) :
    ((liftM check : Checking α) >>= next).run trace = .error halt trace := by
  rw [fails]
  rfl

/-- How many faces some buckets hold. -/
def facesIn (buckets : Array (Option Bucket)) : Nat :=
  (buckets.toList.flatMap fun bucket? => (bucket?.getD {}).faces.toList).length

theorem length_flatMap_modify_le {view : α → List β} {change : α → α} (more : Nat)
    (grows : ∀ element, (view (change element)).length ≤ (view element).length + more)
    (elements : List α) (index : Nat) :
    ((elements.modify index change).flatMap view).length ≤
      (elements.flatMap view).length + more := by
  induction elements generalizing index with
  | nil => simp
  | cons element rest ih =>
      cases index with
      | zero =>
          have := grows element
          simp only [List.modify_zero_cons, List.flatMap_cons, List.length_append]
          omega
      | succ index =>
          have := ih index
          simp only [List.modify_succ_cons, List.flatMap_cons, List.length_append]
          omega

theorem facesIn_addFace (buckets : Array (Option Bucket)) (face : Face) :
    facesIn (buckets.modify submodel fun bucket? =>
      let bucket := bucket?.getD {}
      some { bucket with faces := bucket.faces.push face }) ≤ facesIn buckets + 1 := by
  rw [facesIn, Array.toList_modify]
  exact length_flatMap_modify_le 1 (by simp) _ _

theorem facesIn_opened (buckets : Array (Option Bucket)) {bucket : Bucket}
    (undrawn : bucket.faces = #[]) :
    facesIn (buckets.setIfInBounds submodel (some bucket)) ≤ facesIn buckets := by
  rw [facesIn, Array.toList_setIfInBounds, List.set_eq_modify]
  exact length_flatMap_modify_le 0 (by simp [undrawn]) _ _

theorem facesIn_room (buckets : Array (Option Bucket)) (count : Nat) :
    facesIn (buckets ++ Array.replicate count none) = facesIn buckets := by
  simp [facesIn]

/-- What the record of the work has to do with the marks and the faces. -/
structure Trace.Sound (data : Array UInt8) (trace : Trace) : Prop where
  marks : trace.recovery.executed.size = data.size
  inside : ∀ position ∈ trace.dispatched, position + 2 ≤ data.size
  marked : ∀ position, position ∈ trace.dispatched ↔
    trace.recovery.executed.getD position false = true
  once : trace.dispatched.Nodup
  produced : trace.produced ≤ trace.dispatched.length
  held : facesIn trace.recovery.buckets ≤ trace.produced

/-- A sound record stays sound, no bucket goes away, and instructions were dispatched wherever
the execution arrived. -/
structure Kept (data : Array UInt8) (trace next : Trace) : Prop where
  sound : next.Sound data
  room : trace.recovery.buckets.size ≤ next.recovery.buckets.size
  arrivals : ∃ fresh, next.dispatched = fresh ++ trace.dispatched ∧
    next.arrived = fresh ++ trace.arrived

/-- A record after an arrival. -/
def Trace.arrive (trace : Trace) (position : Nat) : Trace :=
  { trace with arrived := position :: trace.arrived }

/-- A checked execution ends as the unchecked one does, or both report the same error, which is
one of the format.  Either way they have recovered the same.  Arriving where an instruction was
dispatched before is an error, whatever that instruction is. -/
inductive Agrees (data : Array UInt8) (trace : Trace) :
    EStateM.Result Halt Trace Unit → EStateM.Result Error Recovery Unit → Prop
  | ok {next : Trace} (kept : Kept data trace next) :
      Agrees data trace (.ok () next) (.ok () next.recovery)
  | error {next : Trace} (cause : FormatError) (kept : Kept data trace next) :
      Agrees data trace (.error (.error (.format cause)) next)
        (.error (.format cause) next.recovery)
  | again {next : Trace} (position : Nat) (kept : Kept data trace next)
      (earlier : position ∈ next.dispatched) :
      Agrees data trace
        (.error (.error (.format (.sharedBranch position))) (next.arrive position))
        (.error (.format (.sharedBranch position)) next.recovery)

theorem Trace.Sound.refl (sound : trace.Sound data) : Kept data trace trace :=
  ⟨sound, Nat.le_refl _, [], rfl, rfl⟩

theorem Kept.trans {first second third : Trace} (before : Kept data first second)
    (after : Kept data second third) : Kept data first third := by
  obtain ⟨fresh, dispatched, arrived⟩ := before.arrivals
  obtain ⟨later, dispatchedLater, arrivedLater⟩ := after.arrivals
  refine ⟨after.sound, Nat.le_trans before.room after.room, later ++ fresh, ?_, ?_⟩
  · rw [dispatchedLater, dispatched, List.append_assoc]
  · rw [arrivedLater, arrived, List.append_assoc]

theorem Agrees.after {next : Trace} {checked : EStateM.Result Halt Trace Unit}
    {execution : EStateM.Result Error Recovery Unit} (kept : Kept data trace next)
    (agrees : Agrees data next checked execution) : Agrees data trace checked execution := by
  cases agrees with
  | ok keptLater => exact .ok (kept.trans keptLater)
  | error cause keptLater => exact .error cause (kept.trans keptLater)
  | again position keptLater earlier => exact .again position (kept.trans keptLater) earlier

theorem Agrees.andThen {checked checkedNext : Checking Unit} {execution next : Execution Unit}
    (first : Agrees data trace (checked.run trace) (execution.run trace.recovery))
    (later : ∀ between, Kept data trace between →
      Agrees data between (checkedNext.run between) (next.run between.recovery)) :
    Agrees data trace ((do checked; checkedNext : Checking Unit).run trace)
      ((do execution; next : Execution Unit).run trace.recovery) := by
  generalize checkedRan : checked.run trace = checkedResult at first
  generalize ran : execution.run trace.recovery = result at first
  cases first with
  | ok kept =>
      rw [run_bind_of_ok checkedRan, run_bind_of_ok ran]
      exact (later _ kept).after kept
  | error cause kept =>
      rw [run_bind_of_error checkedRan, run_bind_of_error ran]
      exact .error cause kept
  | again position kept earlier =>
      rw [run_bind_of_error checkedRan, run_bind_of_error ran]
      exact .again position kept earlier

theorem Trace.Sound.arrive (sound : trace.Sound data) (position : Nat) :
    (trace.arrive position).Sound data :=
  ⟨sound.marks, sound.inside, sound.marked, sound.once, sound.produced, sound.held⟩

/-- The record after an instruction was dispatched. -/
def Trace.dispatch (trace : Trace) (position : Nat) : Trace :=
  { trace.arrive position with
    recovery := trace.recovery.mark position
    dispatched := position :: trace.dispatched }

theorem Trace.Sound.dispatch (sound : trace.Sound data) (inside : position + 2 ≤ data.size)
    (fresh : trace.recovery.executed.getD position false = false) :
    (trace.dispatch position).Sound data := by
  have absent : position ∉ trace.dispatched := by
    rw [sound.marked, fresh]
    exact Bool.false_ne_true
  refine ⟨?_, ?_, ?_, List.nodup_cons.mpr ⟨absent, sound.once⟩,
    Nat.le_succ_of_le sound.produced, sound.held⟩
  · simpa [Trace.dispatch, Recovery.mark] using sound.marks
  · intro other member
    rcases List.mem_cons.mp member with rfl | earlier
    · exact inside
    · exact sound.inside other earlier
  · intro other
    have here : position < trace.recovery.executed.size := by
      rw [sound.marks]
      omega
    simp only [Trace.dispatch, Recovery.mark, List.mem_cons, Array.getD_eq_getD_getElem?,
      Array.getElem?_setIfInBounds]
    by_cases same : other = position
    · subst same
      simp [here]
    · rw [if_neg (Ne.symm same), ← Array.getD_eq_getD_getElem?, ← sound.marked]
      simp [same]

theorem dispatch_run (sound : trace.Sound data) (inside : position + 2 ≤ data.size)
    (fresh : trace.recovery.executed.getD position false = false) :
    (dispatch position).run trace = .ok () (trace.dispatch position) := by
  have here : position < (trace.arrive position).recovery.executed.size := by
    rw [(sound.arrive position).marks]
    omega
  have mark : (trace.arrive position).recovery.executed.getD position false = _ := fresh
  refine (run_modify_bind (Trace.arrive · position) _).trans ?_
  rw [run_get_bind, if_pos here, mark]
  rfl

theorem dispatch_run_of_reached (sound : trace.Sound data) (inside : position + 2 ≤ data.size)
    (reached : trace.recovery.executed.getD position false = true) :
    (dispatch position).run trace =
      .error (.error (.format (.sharedBranch position))) (trace.arrive position) := by
  have here : position < (trace.arrive position).recovery.executed.size := by
    rw [(sound.arrive position).marks]
    omega
  have mark : (trace.arrive position).recovery.executed.getD position false = _ := reached
  refine (run_modify_bind (Trace.arrive · position) _).trans ?_
  rw [run_get_bind, if_pos here, mark]
  rfl

theorem fill_run {positions : List FixedVector} {number start stop : Nat}
    (block : Holds data start (positions.flatMap FixedVector.bytes))
    (room : start + positions.length * FixedVector.byteSize ≤ stop)
    (slots : number + positions.length ≤ trace.recovery.points.size) :
    (fill data number positions.length ⟨start, stop⟩).run trace =
      .ok () { trace with
        recovery :=
          { trace.recovery with
            points := Execution.setPoints trace.recovery.points number positions } } := by
  induction positions generalizing trace number start with
  | nil => rfl
  | cons position rest ih =>
      rw [List.flatMap_cons, holds_append, length_vector_bytes] at block
      rw [FixedVector.byteSize] at room block
      simp only [List.length_cons] at room slots ⊢
      rw [fill, run_check_of_ok (readVector_eq (by omega) (vector_readAt_eq_ok.mpr block.1))]
      simp only
      rw [run_get_bind, if_pos (by omega)]
      refine (ih block.2 (by rw [FixedVector.byteSize]; omega) ?_).trans rfl
      simp only [Array.size_setIfInBounds]
      omega

/-- The record after points were defined. -/
def Trace.define (trace : Trace) (first : Nat) (positions : List FixedVector) : Trace :=
  { trace with
    recovery :=
      { trace.recovery with
        points := Execution.setPoints
          (Execution.extend trace.recovery.points (first + positions.length)) first positions } }

theorem points_run {first : Nat} {positions : List FixedVector} {start : Nat}
    (header : pointsHeader data position = .ok (first, positions.length,
      ⟨start, start + positions.length * FixedVector.byteSize⟩))
    (block : Holds data start (positions.flatMap FixedVector.bytes)) :
    (points data position).run trace =
      .ok (pointsSize positions.length) (trace.define first positions) := by
  let extended : Trace :=
    { trace with
      recovery :=
        { trace.recovery with
          points := Execution.extend trace.recovery.points (first + positions.length) } }
  have slots : first + positions.length ≤ extended.recovery.points.size := by
    simp [extended, Execution.extend]
    omega
  rw [points, run_check_of_ok header]
  exact run_bind_of_ok (fill_run block (Nat.le_refl _) slots)

/-- What neither changes marks nor adds faces keeps a sound record sound. -/
theorem Trace.Sound.recovering (sound : trace.Sound data) {recovery : Recovery}
    (marks : recovery.executed = trace.recovery.executed)
    (drawn : facesIn recovery.buckets ≤ facesIn trace.recovery.buckets) :
    Trace.Sound data { trace with recovery := recovery } where
  marks := by simpa [marks] using sound.marks
  inside := sound.inside
  marked := by simpa [marks] using sound.marked
  once := sound.once
  produced := sound.produced
  held := Nat.le_trans drawn sound.held

/-- A face is counted when it is added, and its polygon was dispatched before. -/
theorem addFace_agrees (sound : trace.Sound data)
    (opened : submodel < trace.recovery.buckets.size)
    (fewer : trace.produced < trace.dispatched.length) (face : Face) :
    Agrees data trace ((addFace submodel face).run trace)
      ((Execution.addFace submodel face).run trace.recovery) := by
  rw [addFace, run_get_bind, if_pos opened]
  refine .ok ⟨⟨sound.marks, sound.inside, sound.marked, sound.once, fewer, ?_⟩, by simp, [],
    rfl, rfl⟩
  exact Nat.le_trans (facesIn_addFace _ face) (Nat.succ_le_succ sound.held)

/-- Buckets with room for a submodel. -/
def roomFor (submodel : Nat) (buckets : Array (Option Bucket)) : Array (Option Bucket) :=
  buckets ++ Array.replicate (submodel + 1 - buckets.size) none

theorem lt_size_roomFor (submodel : Nat) (buckets : Array (Option Bucket)) :
    submodel < (roomFor submodel buckets).size := by
  simp [roomFor]
  omega

theorem openBucket_run (small : submodel ≤ maxWord) (bucket : Bucket) :
    (openBucket submodel bucket).run trace =
      if (trace.recovery.buckets[submodel]?).join.isSome then
        .error (.error (.format (.duplicateSubmodel submodel)))
          { trace with
            recovery :=
              { trace.recovery with buckets := roomFor submodel trace.recovery.buckets } }
      else
        .ok () { trace with
          recovery :=
            { trace.recovery with
              buckets := (roomFor submodel trace.recovery.buckets).setIfInBounds submodel
                (some bucket) } } := by
  let roomy : Trace :=
    { trace with
      recovery := { trace.recovery with buckets := roomFor submodel trace.recovery.buckets } }
  have keeps : (roomy.recovery.buckets[submodel]?).join =
      (trace.recovery.buckets[submodel]?).join :=
    join_getElem?_padded trace.recovery.buckets _ submodel
  rw [openBucket, run_check_of_ok (fits_of_lt (by rw [maxWord] at small; omega)), ← keeps]
  have madeRoom : (recover fun recovery =>
      { recovery with buckets := roomFor submodel recovery.buckets }).run trace =
        .ok () roomy := rfl
  refine (run_bind_of_ok madeRoom).trans ?_
  rw [run_get_bind, if_pos (lt_size_roomFor submodel _)]
  split_ifs <;> rfl

/-- Room is only made for a submodel that was not called before, and it is open then. -/
theorem openBucket_andThen (sound : trace.Sound data) (small : submodel ≤ maxWord)
    {bucket : Bucket} (undrawn : bucket.faces = #[]) {checkedNext : Checking Unit}
    {next : Execution Unit}
    (later : ∀ begun, Kept data trace begun → submodel < begun.recovery.buckets.size →
      Agrees data begun (checkedNext.run begun) (next.run begun.recovery)) :
    Agrees data trace ((do openBucket submodel bucket; checkedNext : Checking Unit).run trace)
      ((do Execution.openBucket submodel bucket; next : Execution Unit).run trace.recovery) := by
  have opens : (openBucket submodel bucket).run trace = _ := openBucket_run small bucket
  cases known : (trace.recovery.buckets[submodel]?).join with
  | some found =>
      have inside : submodel < trace.recovery.buckets.size := by
        by_contra outside
        rw [Array.getElem?_eq_none (Nat.le_of_not_lt outside)] at known
        cases known
      have enough : roomFor submodel trace.recovery.buckets = trace.recovery.buckets := by
        have none_more : submodel + 1 - trace.recovery.buckets.size = 0 := by omega
        rw [roomFor, none_more, Array.replicate_zero, Array.append_empty]
      have refused : (Execution.openBucket submodel bucket).run trace.recovery =
          .error (.format (.duplicateSubmodel submodel)) trace.recovery := by
        rw [Execution.openBucket, run_get_bind, known]
        rfl
      rw [known, enough] at opens
      rw [run_bind_of_error opens, run_bind_of_error refused]
      exact .error _ sound.refl
  | none =>
      have opened : (Execution.openBucket submodel bucket).run trace.recovery =
          .ok () { trace.recovery with
            buckets := (roomFor submodel trace.recovery.buckets).setIfInBounds submodel
              (some bucket) } := by
        rw [Execution.openBucket, run_get_bind, known]
        rfl
      rw [known] at opens
      rw [run_bind_of_ok opens, run_bind_of_ok opened]
      have begun : Kept data trace
          { trace with
            recovery :=
              { trace.recovery with
                buckets := (roomFor submodel trace.recovery.buckets).setIfInBounds submodel
                  (some bucket) } } := by
        refine ⟨sound.recovering rfl ?_, by simp [roomFor], [], rfl, rfl⟩
        exact Nat.le_trans (facesIn_opened _ undrawn) (facesIn_room _ _).le
      exact Agrees.after begun (later _ begun (by simpa using lt_size_roomFor submodel _))

end State

end PaintOrder.Code.Checked
