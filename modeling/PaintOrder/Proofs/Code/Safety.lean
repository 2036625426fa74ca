import Mathlib.Data.List.Perm.Subperm
import PaintOrder.Proofs.Code.Calls
import PaintOrder.Proofs.Code.SafeSteps

/-!
# Executions are safe

An execution with every access checked never comes to a fault: it does what the unchecked one
does, whatever the bytes are.  The marks let every position be dispatched at most once, over
any number of executions, and so bound all the work that is ever done.
-/

namespace PaintOrder.Code.Checked

section Walk

variable {data : Array UInt8} {trace : Trace} {depth levels submodel position : Nat}

/-- What a checked walk does behind an instruction of some size. -/
def onward (data : Array UInt8) (depth submodel position size : Nat) : Checking Unit := do
  fits (position + size)
  if _ : 0 < size ∧ position < data.size then walk data depth submodel (position + size)
  else throw .fault

theorem onward_run (addressable : Addressable data) {size : Nat} (positive : 0 < size)
    (near : position + size ≤ data.size) :
    (onward data depth submodel position size).run trace =
      (walk data depth submodel (position + size)).run trace := by
  rw [onward, run_check_of_ok (fits_of_le addressable (by omega)), dif_pos ⟨positive, by omega⟩]

theorem walk_run_of_deep (deep : nestingLimit < depth) :
    (walk data depth submodel position).run trace =
      .error (.error (.format (.tooDeep nestingLimit))) trace := by
  rw [walk, dif_pos deep]
  rfl

/-- What a checked walk does after it dispatched an opcode. -/
def carryOut (data : Array UInt8) (depth submodel position : Nat) : Opcode → Checking Unit
  | .stop => pure ()
  | .points | .pointsFrom => do
      onward data depth submodel position (← points data position)
  | .flatPolygon => do
      let (face, size) ← polygon data (← get).recovery.points position false
      addFace submodel face
      onward data depth submodel position size
  | .texturedPolygon => do
      let (face, size) ← polygon data (← get).recovery.points position true
      addFace submodel face
      onward data depth submodel position size
  | .sort => do
      let (front, back) ← sort data position
      fits (depth + 1)
      walk data (depth + 1) submodel front
      walk data (depth + 1) submodel back
      onward data depth submodel position sortSize
  | .call => do
      let (callee, offset, target) ← call data position
      openBucket callee { parent := some submodel, offset := offset, entry := target }
      fits (depth + 1)
      walk data (depth + 1) callee target
      onward data depth submodel position callSize

/-- A checked walk reads an opcode where it is, dispatches it and carries it out. -/
theorem walk_run_of_inside (addressable : Addressable data) (shallow : depth ≤ nestingLimit)
    (inside : position + 2 ≤ data.size) {word : UInt16}
    (wordRead : wordAt data position = .ok word) :
    (walk data depth submodel position).run trace =
      (do
        dispatch position
        let opcode ← (Opcode.ofWord word position : Except FormatError Opcode)
        carryOut data depth submodel position opcode : Checking Unit).run trace := by
  have wordHere : readWord data ⟨position, position + stopSize⟩ =
      .ok (word, ⟨position + 2, position + stopSize⟩) :=
    read_eq (Nat.le_refl _) wordRead
  have sliced : slice data position stopSize = .ok ⟨position, position + stopSize⟩ :=
    slice_eq_ok addressable inside
  rw [walk, dif_neg (Nat.not_lt_of_le shallow)]
  simp only
  rw [run_check_of_ok sliced, run_check_of_ok wordHere]
  rfl

/-- A second arrival at an instruction is refused. -/
theorem walk_run_of_dispatched (addressable : Addressable data) (sound : trace.Sound data)
    (shallow : depth ≤ nestingLimit) (earlier : position ∈ trace.dispatched) :
    (walk data depth submodel position).run trace =
      .error (.error (.format (.sharedBranch position))) (trace.arrive position) := by
  have inside := sound.inside position earlier
  obtain ⟨word, wordRead⟩ := exists_wordAt inside
  rw [walk_run_of_inside addressable shallow inside wordRead]
  exact run_bind_of_error
    (dispatch_run_of_reached sound inside ((sound.marked position).mp earlier))

/-- A checked walk agrees with the unchecked one, for any submodel that is open. -/
def Follows (data : Array UInt8) (levels depth submodel position : Nat) : Prop :=
  ∀ trace : Trace, trace.Sound data → submodel < trace.recovery.buckets.size →
    Agrees data trace ((walk data depth submodel position).run trace)
      ((Execution.walk data levels submodel position).run trace.recovery)

/-- A walk for an open submodel has come to an instruction that was not reached before. -/
structure Arrived (data : Array UInt8) (trace : Trace) (submodel position : Nat) : Prop where
  sound : trace.Sound data
  opened : submodel < trace.recovery.buckets.size
  inside : position + 2 ≤ data.size
  fresh : trace.recovery.executed.getD position false = false

namespace Arrived

theorem kept (arrived : Arrived data trace submodel position) :
    Kept data trace (trace.dispatch position) :=
  ⟨arrived.sound.dispatch arrived.inside arrived.fresh, Nat.le_refl _, [position], rfl, rfl⟩

/-- Both report that the instruction cannot be read. -/
theorem unread (arrived : Arrived data trace submodel position) {cause : FormatError}
    (failed : Instruction.at data position = .error (.format cause)) :
    Agrees data trace (.error (.error (.format cause)) (trace.dispatch position))
      ((Execution.walk data levels submodel position).run trace.recovery) := by
  rw [Execution.walk_run_of_unread arrived.inside arrived.fresh failed]
  exact .error cause arrived.kept

/-- Both follow the instruction. -/
theorem read (arrived : Arrived data trace submodel position) {instruction : Instruction}
    (isRead : Instruction.at data position = .ok instruction)
    {checked : EStateM.Result Halt Trace Unit}
    (agrees : Agrees data (trace.dispatch position) checked
      ((Execution.follow data levels submodel position instruction).run
        (trace.dispatch position).recovery)) :
    Agrees data trace checked
      ((Execution.walk data levels submodel position).run trace.recovery) := by
  rw [Execution.walk_run isRead arrived.fresh]
  exact agrees.after arrived.kept

/-- What comes behind an instruction is inside the bytes as well. -/
theorem onward_agrees (addressable : Addressable data)
    {instruction : Instruction} (isRead : Instruction.at data position = .ok instruction)
    (next : ∀ other, position < other → Follows data levels depth submodel other)
    (sound : trace.Sound data) (opened : submodel < trace.recovery.buckets.size) :
    Agrees data trace ((onward data depth submodel position instruction.size).run trace)
      ((Execution.walk data levels submodel (position + instruction.size)).run
        trace.recovery) := by
  have positive := instruction.size_pos
  rw [onward_run addressable positive (Instruction.at_eq_ok_iff.mp isRead).1.complete]
  exact next _ (by omega) trace sound opened

theorem points_agrees (arrived : Arrived data trace submodel position)
    (addressable : Addressable data)
    (isPoints : Instruction.at data position = pointsAt data position)
    (next : ∀ other, position < other → Follows data levels depth submodel other) :
    Agrees data trace
      ((do onward data depth submodel position (← points data position)).run
        (trace.dispatch position))
      ((Execution.walk data levels submodel position).run trace.recovery) := by
  rcases (pointsHeader_matches addressable arrived.inside).cases with
    ⟨⟨first, count, block⟩, _, header, found, positions, rfl, rfl, rfl, holds⟩ |
      ⟨cause, header, failed⟩
  · have isRead := isPoints.trans found
    have defined : Kept data (trace.dispatch position)
        ((trace.dispatch position).define first positions) :=
      ⟨arrived.kept.sound.recovering rfl (Nat.le_refl _), Nat.le_refl _, [], rfl, rfl⟩
    rw [run_bind_of_ok (points_run header holds)]
    refine arrived.read isRead (Agrees.after defined ?_)
    exact onward_agrees addressable isRead next defined.sound arrived.opened
  · have stops : (points data position).run (trace.dispatch position) =
        .error (.error (.format cause)) (trace.dispatch position) := by
      rw [points, run_check_of_error header]
    rw [run_bind_of_error stops]
    exact arrived.unread (isPoints.trans failed)

theorem polygon_agrees (arrived : Arrived data trace submodel position)
    (addressable : Addressable data) {textured : Bool}
    (isPolygon : Instruction.at data position = polygonAt data position textured)
    (next : ∀ other, position < other → Follows data levels depth submodel other) :
    Agrees data trace
      ((do
        let (face, size) ← polygon data (← get).recovery.points position textured
        addFace submodel face
        onward data depth submodel position size : Checking Unit).run (trace.dispatch position))
      ((Execution.walk data levels submodel position).run trace.recovery) := by
  let points := (trace.dispatch position).recovery.points
  have matched := (polygon_matches addressable arrived.inside points textured).cases
  rw [run_get_bind]
  cases found : polygonAt data position textured with
  | error cause =>
      rw [drawnAt, found] at matched
      rcases matched with ⟨_, _, _, ⟨⟩, _⟩ | ⟨cause', stops, ⟨⟩⟩
      rw [run_check_of_error stops]
      exact arrived.unread (isPolygon.trans found)
  | ok instruction =>
      obtain ⟨drawn, rfl, rfl, _⟩ := polygonAt_eq_ok.mp found
      have isRead := isPolygon.trans found
      refine arrived.read isRead ?_
      rw [drawnAt, found, ok_bind] at matched
      rw [Execution.follow]
      cases placed : Execution.faceOf points position drawn with
      | error cause =>
          simp only [placed] at matched
          rcases matched with ⟨_, _, _, ⟨⟩, _⟩ | ⟨cause', stops, ⟨⟩⟩
          have fails : (Execution.draw submodel position drawn).run
              (trace.dispatch position).recovery =
                .error (.format cause) (trace.dispatch position).recovery := by
            rw [Execution.draw, run_get_bind, placed]
            rfl
          rw [run_check_of_error stops, run_bind_of_error fails]
          exact .error cause arrived.kept.sound.refl
      | ok face =>
          simp only [placed] at matched
          rcases matched with ⟨_, _, gives, ⟨⟩, rfl⟩ | ⟨cause', _, ⟨⟩⟩
          rw [run_check_of_ok gives]
          refine Agrees.andThen ?_ fun between kept => onward_agrees addressable isRead next
            kept.sound (Nat.lt_of_lt_of_le arrived.opened kept.room)
          rw [Execution.draw, run_get_bind, placed]
          exact addFace_agrees arrived.kept.sound arrived.opened
            (Nat.lt_succ_of_le arrived.sound.produced) face

theorem sort_agrees (arrived : Arrived data trace submodel position)
    (addressable : Addressable data) (sum : depth + levels = nestingLimit)
    (isSort : Instruction.at data position = sortAt data position)
    (next : ∀ other, position < other → Follows data levels depth submodel other)
    (deeper : ∀ less other start, less < levels →
      Follows data less (nestingLimit - less) other start) :
    Agrees data trace
      ((do
        let (front, back) ← sort data position
        fits (depth + 1)
        walk data (depth + 1) submodel front
        walk data (depth + 1) submodel back
        onward data depth submodel position sortSize : Checking Unit).run
          (trace.dispatch position))
      ((Execution.walk data levels submodel position).run trace.recovery) := by
  have depthFits : fits (depth + 1) = .ok () := fits_of_lt (by
    rw [nestingLimit] at sum
    omega)
  rcases (sort_matches addressable arrived.inside).cases with
    ⟨⟨front, back⟩, _, branches, found, rfl⟩ | ⟨cause, stops, failed⟩
  · have isRead := isSort.trans found
    rw [run_check_of_ok branches]
    simp only
    rw [run_check_of_ok depthFits]
    refine arrived.read isRead ?_
    cases levels with
    | zero =>
        rw [run_bind_of_error (walk_run_of_deep (by omega))]
        exact .error _ arrived.kept.sound.refl
    | succ nested =>
        have same : nestingLimit - nested = depth + 1 := by omega
        have branch := fun start => deeper nested submodel start (Nat.lt_succ_self _)
        rw [same] at branch
        refine Agrees.andThen (branch front _ arrived.kept.sound arrived.opened) ?_
        intro between kept
        have stillOpen := Nat.lt_of_lt_of_le arrived.opened kept.room
        refine Agrees.andThen (branch back _ kept.sound stillOpen) ?_
        intro later keptLater
        exact onward_agrees addressable isRead next keptLater.sound
          (Nat.lt_of_lt_of_le stillOpen keptLater.room)
  · rw [run_check_of_error stops]
    exact arrived.unread (isSort.trans failed)

theorem call_agrees (arrived : Arrived data trace submodel position)
    (addressable : Addressable data) (sum : depth + levels = nestingLimit)
    (isCall : Instruction.at data position = callAt data position)
    (next : ∀ other, position < other → Follows data levels depth submodel other)
    (deeper : ∀ less other start, less < levels →
      Follows data less (nestingLimit - less) other start) :
    Agrees data trace
      ((do
        let (callee, offset, target) ← call data position
        openBucket callee { parent := some submodel, offset := offset, entry := target }
        fits (depth + 1)
        walk data (depth + 1) callee target
        onward data depth submodel position callSize : Checking Unit).run
          (trace.dispatch position))
      ((Execution.walk data levels submodel position).run trace.recovery) := by
  have depthFits : fits (depth + 1) = .ok () := fits_of_lt (by
    rw [nestingLimit] at sum
    omega)
  rcases (call_matches addressable arrived.inside).cases with
    ⟨⟨callee, offset, target⟩, _, called, found, rfl⟩ | ⟨cause, stops, failed⟩
  · have isRead := isCall.trans found
    obtain ⟨_, _, _, ⟨⟩, _, ⟨small, _⟩, _⟩ := callAt_eq_ok.mp found
    rw [run_check_of_ok called]
    refine arrived.read isRead ?_
    refine openBucket_andThen arrived.kept.sound small rfl ?_
    intro begun keptBegun calleeOpen
    rw [run_check_of_ok depthFits]
    cases levels with
    | zero =>
        rw [run_bind_of_error (walk_run_of_deep (by omega))]
        exact .error _ keptBegun.sound.refl
    | succ nested =>
        have same : nestingLimit - nested = depth + 1 := by omega
        have branch := deeper nested callee target (Nat.lt_succ_self _)
        rw [same] at branch
        refine Agrees.andThen (branch begun keptBegun.sound calleeOpen) ?_
        intro later keptLater
        exact onward_agrees addressable isRead next keptLater.sound
          (Nat.lt_of_lt_of_le arrived.opened (keptBegun.trans keptLater).room)
  · rw [run_check_of_error stops]
    exact arrived.unread (isCall.trans failed)

end Arrived

/-- A checked walk with a sound record does what the unchecked one does. -/
theorem walk_agrees (addressable : Addressable data) :
    ∀ levels submodel position, levels ≤ nestingLimit →
      Follows data levels (nestingLimit - levels) submodel position := by
  refine Execution.walk_induction data ?_
  intro levels submodel position ahead shallower shallow trace sound opened
  have sum : nestingLimit - levels + levels = nestingLimit := by omega
  have deeper : ∀ less other start, less < levels →
      Follows data less (nestingLimit - less) other start :=
    fun less other start fewer => shallower less other start fewer (by omega)
  rcases Nat.lt_or_ge data.size (position + 2) with outside | inside
  · have cut : slice data position stopSize = .error (.error (.format (.truncated position))) :=
      slice_eq_error (Nat.not_le_of_lt outside)
    rw [walk, dif_neg (by omega)]
    simp only
    rw [run_check_of_error cut, Execution.walk_run_of_truncated outside]
    exact .error _ sound.refl
  cases reached : trace.recovery.executed.getD position false with
  | true =>
      have earlier := (sound.marked position).mpr reached
      rw [walk_run_of_dispatched addressable sound (by omega) earlier,
        Execution.walk_run_of_reached inside reached]
      exact .again position sound.refl earlier
  | false =>
      have next : ∀ other, position < other →
          Follows data levels (nestingLimit - levels) submodel other :=
        fun other further => ahead other further (by omega) shallow
      have arrived : Arrived data trace submodel position := ⟨sound, opened, inside, reached⟩
      obtain ⟨word, wordRead⟩ := exists_wordAt inside
      have isAt := at_eq_of_word wordRead inside
      rw [walk_run_of_inside addressable (by omega) inside wordRead,
        run_bind_of_ok (dispatch_run sound inside reached)]
      cases decoded : Opcode.ofWord word position with
      | error cause =>
          rw [decoded] at isAt
          exact arrived.unread isAt
      | ok opcode =>
          rw [decoded] at isAt
          cases opcode with
          | stop => exact arrived.read isAt (.ok arrived.kept.sound.refl)
          | points | pointsFrom => exact arrived.points_agrees addressable isAt next
          | flatPolygon | texturedPolygon =>
              exact arrived.polygon_agrees addressable isAt next
          | sort => exact arrived.sort_agrees addressable sum isAt next deeper
          | call => exact arrived.call_agrees addressable sum isAt next deeper

end Walk

section Entries

variable {data : Array UInt8} {trace : Trace}

/-- The record before anything was executed. -/
def Trace.start (data : Array UInt8) : Trace where
  recovery := .start data

theorem Trace.start_sound (data : Array UInt8) : (Trace.start data).Sound data where
  marks := Array.size_replicate
  inside := nofun
  marked position := by
    rw [Trace.start, Recovery.start_fresh]
    simp
  once := List.nodup_nil
  produced := Nat.le_refl _
  held := Nat.le_refl _

/-- A record when the root is about to be executed: everything but the buckets is kept. -/
def Trace.enter (trace : Trace) (entry : Nat) : Trace :=
  { trace with recovery := { trace.recovery with buckets := #[some { entry := entry }] } }

theorem fromEntry_agrees (addressable : Addressable data) (sound : trace.Sound data)
    (entry : Nat) :
    Agrees data (trace.enter entry) ((fromEntry data entry).run trace)
      ((Execution.fromEntry data entry).run trace.recovery) := by
  have entered : (trace.enter entry).Sound data := sound.recovering rfl (Nat.zero_le _)
  have agrees := walk_agrees addressable nestingLimit 0 entry (Nat.le_refl _) _ entered
    Nat.zero_lt_one
  rwa [Nat.sub_self] at agrees

/-- The record after executing the root from some entries in turn, however that ends. -/
def afterEntries (data : Array UInt8) (trace : Trace) (entries : List Nat) : Trace :=
  entries.foldl (fun known entry => leftover ((fromEntry data entry).run known)) trace

/-- However often code was executed, the record is sound and the same was recovered as without
checks. -/
theorem afterEntries_sound (addressable : Addressable data) (sound : trace.Sound data)
    (entries : List Nat) :
    (afterEntries data trace entries).Sound data ∧
      (afterEntries data trace entries).recovery =
        Execution.afterEntries data trace.recovery entries := by
  induction entries generalizing trace with
  | nil => exact ⟨sound, rfl⟩
  | cons entry rest ih =>
      have agrees := fromEntry_agrees addressable sound entry
      rw [afterEntries, Execution.afterEntries, List.foldl_cons, List.foldl_cons]
      generalize (fromEntry data entry).run trace = checked at agrees
      generalize (Execution.fromEntry data entry).run trace.recovery = execution at agrees
      cases agrees with
      | ok kept => exact ih kept.sound
      | error _ kept => exact ih kept.sound
      | again position kept _ => exact ih (kept.sound.arrive position)

/-- Different positions inside the bytes are no more than there are bytes. -/
theorem Trace.Sound.length_dispatched_le (sound : trace.Sound data) :
    trace.dispatched.length ≤ data.size := by
  have inside : trace.dispatched ⊆ List.range data.size := by
    intro position member
    have := sound.inside position member
    exact List.mem_range.mpr (by omega)
  simpa using (sound.once.subperm inside).length_le

end Entries

end PaintOrder.Code.Checked
