import Mathlib.Data.List.Range
import PaintOrder.Proofs.Code.History
import PaintOrder.Proofs.Code.Retrace
import PaintOrder.Proofs.Model.Recovered

/-!
# The format

A model is recovered from an entry exactly if a program stands there that can be executed: no
instruction of it stands at the address of another, it does not nest too deeply, its polygons
use points that were defined before, and its calls are of each further submodel once.  The
model is then the one that the events of the program tell.
-/

namespace PaintOrder

open Code

namespace Model

/-- A program that stands at an entry and can be executed to its end. -/
structure Admissible (data : Array UInt8) (entry : Nat) (program : Program) : Prop where
  stands : program.Stands data entry
  /-- No instruction is reached twice. -/
  once : (program.addresses entry).Nodup
  shallow : program.depth ≤ nestingLimit
  /-- Polygons have three corners or more, all with numbers of points defined before. -/
  polygons : ∀ before submodel position polygon after,
    program.events 0 entry = before ++ .draw submodel position polygon :: after →
      3 ≤ polygon.corners.length ∧
        ∀ corner ∈ polygon.corners, ∃ event ∈ before, event.Defines corner.index.toInt
  /-- Calls are of the submodels from the first one on, of each of them once. -/
  calls : (History.called (program.events 0 entry)).Perm
    (List.range' 1 (History.called (program.events 0 entry)).length)

/-- A submodel with its bucket and the links to the submodels that called it and that it
called, out of some number of submodels. -/
def linkedSubmodel (bucketOf : Nat → Bucket) (count index : Nat) : Submodel where
  offset := (bucketOf index).offset
  bounds := .ofFaces (bucketOf index).faces.toList
  entry := (bucketOf index).entry
  parent := (bucketOf index).parent
  children := (List.range count).filter fun child => (bucketOf child).parent = some index
  faces := (bucketOf index).faces.toList

/-- The model that a history tells after the root was executed from an entry. -/
def ofHistory (data : Array UInt8) (entry : Nat) (history : List Event) : Model where
  submodels :=
    let count := (History.called history).length + 1
    let bucketOf index := (History.bucket? entry history index).getD {}
    ((List.range count).map (linkedSubmodel bucketOf count)).toArray
  data := data

section Events

variable {entry : Nat} {history : List Event} {recovery : Recovery} {data : Array UInt8}

theorem linkedBuckets_eq (data : Array UInt8) (bucketOf : Nat → Bucket) (count : Nat) :
    (linkedBuckets data ((List.range count).map bucketOf) count).updateBounds =
      { submodels := ((List.range count).map (linkedSubmodel bucketOf count)).toArray
        data := data } := by
  let model := (linkedBuckets data ((List.range count).map bucketOf) count).updateBounds
  have submodels : model.submodels =
      ((List.range count).map (linkedSubmodel bucketOf count)).toArray := by
    apply Array.ext
    · simp [model, updateBounds, linkedBuckets]
    · intro index inModel inRange
      have below : index < count := by simpa using inRange
      have linked : model.submodel index = linkedSubmodel bucketOf count index :=
        linkedBuckets_updateBounds below
      rw [submodel, Array.getD_eq_getD_getElem?, Array.getElem?_eq_getElem inModel] at linked
      simpa using linked
  exact congrArg (fun submodels => ({ submodels := submodels, data := data } : Model)) submodels

/-- What was recovered becomes the model that its history tells, if no submodel is missing. -/
theorem ofRecovery_of_records (records : recovery.Records entry history)
    (wellFormed : recovery.WellFormed) (distinct : (0 :: History.called history).Nodup)
    {model : Model} :
    ofRecovery data recovery = .ok model ↔
      (History.called history).Perm (List.range' 1 (History.called history).length) ∧
        model = ofHistory data entry history := by
  rw [← History.complete_iff distinct]
  have known : ∀ index, (recovery.bucket? index).isSome ↔
      index ∈ 0 :: History.called history := by
    intro index
    rw [records.bucket_eq, History.isSome_bucket?]
  rcases ofRecovery_cases data wellFormed with
    ⟨index, absent, missing⟩ | ⟨buckets, stored, recovered⟩
  · have incomplete : ¬∀ index < History.size history, index ∈ 0 :: History.called history := by
      intro complete
      obtain ⟨inRange, _⟩ := Array.getElem?_eq_some_iff.mp absent
      have opened := (known index).mpr (complete index (records.size_eq ▸ inRange))
      rw [Recovery.bucket?, absent] at opened
      cases opened
    rw [missing]
    constructor
    · intro recovered
      cases recovered
    · exact fun told => absurd told.1 incomplete
  · have size : History.size history = buckets.length := by
      rw [← records.size_eq, ← Array.length_toList, stored, List.length_map]
    have complete : ∀ index < History.size history, index ∈ 0 :: History.called history := by
      intro index inRange
      rw [size] at inRange
      rw [← known, bucket?_eq stored, List.getElem?_eq_getElem inRange]
      rfl
    have count : buckets.length = (History.called history).length + 1 :=
      size.symm.trans (History.size_of_complete distinct complete)
    have told : buckets = (List.range buckets.length).map fun index =>
        (History.bucket? entry history index).getD {} := by
      apply List.ext_getElem
      · simp
      · intro index inBuckets inRange
        rw [List.getElem_map, List.getElem_range, ← records.bucket_eq, bucket?_eq stored,
          List.getElem?_eq_getElem inBuckets]
        rfl
    have isModel : (linkedBuckets data buckets buckets.length).updateBounds =
        ofHistory data entry history := by
      rw [count] at told ⊢
      rw [told, linkedBuckets_eq, ofHistory]
    rw [recovered, isModel, Except.ok.injEq, eq_comm]
    exact (and_iff_right complete).symm

end Events

section Programs

variable {data : Array UInt8} {entry : Nat} {program : Program} {result : Recovery}

/-- A program is admissible if it can be read, its events are possible one after the other and
no submodel is missing. -/
theorem admissible_iff : Admissible data entry program ↔
    program.LaidOut data entry ∧ (program.addresses entry).Nodup ∧
      program.depth ≤ nestingLimit ∧
      History.Along History.Possible [] (program.events 0 entry) ∧
      (History.called (program.events 0 entry)).Perm
        (List.range' 1 (History.called (program.events 0 entry)).length) := by
  rw [Program.laidOut_iff 0, History.along_iff]
  constructor
  · intro admissible
    have positive : ∀ callee ∈ History.called (program.events 0 entry), 0 < callee := by
      intro callee member
      have := admissible.calls.mem_iff.mp member
      rw [List.mem_range'_1] at this
      omega
    have distinct : (0 :: History.called (program.events 0 entry)).Nodup :=
      List.nodup_cons.mpr ⟨fun member => Nat.lt_irrefl 0 (positive 0 member),
        admissible.calls.nodup_iff.mpr List.nodup_range'⟩
    refine ⟨⟨admissible.stands, ?_⟩, admissible.once, admissible.shallow, ?_, admissible.calls⟩
    · intro event member
      cases event with
      | define => trivial
      | draw submodel position polygon =>
          obtain ⟨before, after, split⟩ := List.append_of_mem member
          exact (admissible.polygons before submodel position polygon after split).1
      | opened callee bucket => exact positive callee (History.mem_called member)
    · intro before event after split
      cases event with
      | define => trivial
      | draw submodel position polygon =>
          have placed := (admissible.polygons before submodel position polygon after split).2
          refine History.placed_iff.mpr ?_
          simpa using placed
      | opened callee bucket => exact History.not_mem_called (split ▸ distinct)
  · rintro ⟨⟨stands, legal⟩, once, shallow, possible, calls⟩
    refine ⟨stands, once, shallow, ?_, calls⟩
    intro before submodel position polygon after split
    refine ⟨legal (.draw submodel position polygon) (by simp [split]), ?_⟩
    have placed := History.placed_iff.mp (possible before _ after split)
    simpa using placed

/-- An execution that comes to its end has gone through a program. -/
theorem exists_program_of_run
    (ran : (Execution.fromEntry data entry).run (.start data) = .ok () result) :
    ∃ program : Program, program.LaidOut data entry ∧ (program.addresses entry).Nodup ∧
      program.depth ≤ nestingLimit ∧
      History.Along History.Possible [] (program.events 0 entry) ∧
      result.Records entry (program.events 0 entry).reverse := by
  rw [Execution.fromEntry_run] at ran
  obtain ⟨program, laidOut, shallow, went⟩ := Execution.exists_program_of_walk data
    nestingLimit 0 entry _ result Array.size_replicate ran
  obtain ⟨left, performed, rfl⟩ := went.performed
  have records := Recovery.Records.entered data entry
  have isOpen : History.Along History.Opened [] (program.events 0 entry) :=
    History.along_opened program (by simp)
  have possible := records.possible_of_performAll isOpen performed
  obtain ⟨_, again, leftRecords⟩ := records.performAll_of_possible isOpen possible
  obtain rfl := (EStateM.Result.ok.inj (performed.symm.trans again)).2
  rw [List.append_nil] at leftRecords
  exact ⟨program, laidOut, went.once, shallow, possible,
    ⟨leftRecords.point_eq, leftRecords.bucket_eq, leftRecords.size_eq⟩⟩

/-- A program whose events are possible is executed to its end. -/
theorem exists_run_of_program (laidOut : program.LaidOut data entry)
    (once : (program.addresses entry).Nodup) (shallow : program.depth ≤ nestingLimit)
    (possible : History.Along History.Possible [] (program.events 0 entry)) :
    ∃ result, (Execution.fromEntry data entry).run (.start data) = .ok () result ∧
      result.Records entry (program.events 0 entry).reverse := by
  have isOpen : History.Along History.Opened [] (program.events 0 entry) :=
    History.along_opened program (by simp)
  obtain ⟨left, performed, records⟩ :=
    (Recovery.Records.entered data entry).performAll_of_possible isOpen possible
  have realizes : Realizes nestingLimit _ _ _ (Execution.walk data nestingLimit 0 entry) :=
    .program laidOut once
  have ended := realizes { Recovery.start data with buckets := #[some { entry := entry }] } left
    (fun address _ => Recovery.start_fresh data address) performed
  rw [Ends, if_pos shallow] at ended
  rw [List.append_nil] at records
  exact ⟨_, ended, ⟨records.point_eq, records.bucket_eq, records.size_eq⟩⟩

theorem decompileAt_of_records (possible :
      History.Along History.Possible [] (program.events 0 entry))
    (ran : (Execution.fromEntry data entry).run (.start data) = .ok () result)
    (records : result.Records entry (program.events 0 entry).reverse) {model : Model} :
    decompileAt data entry = .ok model ↔
      (History.called (program.events 0 entry)).Perm
        (List.range' 1 (History.called (program.events 0 entry)).length) ∧
      model = ofHistory data entry (program.events 0 entry).reverse := by
  have wellFormed : result.WellFormed := by
    have left := Execution.fromEntry_wellFormed data entry (.start data)
    rwa [ran] at left
  have distinct := History.nodup_called (List.nodup_singleton 0) possible
  rw [List.append_nil] at distinct
  rw [decompileAt, ran]
  refine (ofRecovery_of_records records wellFormed distinct).trans ?_
  rw [History.called_reverse, List.length_reverse]
  exact and_congr_left fun _ => (List.reverse_perm _).congr_left _

/-- A model is recovered exactly from admissible programs, and it is the one that the events
of the program tell. -/
theorem decompileAt_eq_ok_iff (data : Array UInt8) (entry : Nat) :
    ((∃ model, decompileAt data entry = .ok model) ↔
      ∃ program, Admissible data entry program) ∧
    ∀ model, decompileAt data entry = .ok model ↔
      ∃ program, Admissible data entry program ∧
        model = ofHistory data entry (program.events 0 entry).reverse := by
  have accepts : ∀ program, Admissible data entry program →
      decompileAt data entry =
        .ok (ofHistory data entry (program.events 0 entry).reverse) := by
    intro program admissible
    obtain ⟨laidOut, once, shallow, possible, calls⟩ := admissible_iff.mp admissible
    obtain ⟨result, ran, records⟩ := exists_run_of_program laidOut once shallow possible
    exact (decompileAt_of_records possible ran records).mpr ⟨calls, rfl⟩
  have onlyAccepts : ∀ model, decompileAt data entry = .ok model →
      ∃ program, Admissible data entry program ∧
        model = ofHistory data entry (program.events 0 entry).reverse := by
    intro model recovered
    cases ran : (Execution.fromEntry data entry).run (.start data) with
    | error cause left =>
        rw [decompileAt, ran] at recovered
        cases recovered
    | ok nothing result =>
        obtain ⟨program, laidOut, once, shallow, possible, records⟩ := exists_program_of_run ran
        obtain ⟨calls, isModel⟩ := (decompileAt_of_records possible ran records).mp recovered
        exact ⟨program, admissible_iff.mpr ⟨laidOut, once, shallow, possible, calls⟩, isModel⟩
  refine ⟨⟨?_, ?_⟩, fun model => ⟨onlyAccepts model, ?_⟩⟩
  · rintro ⟨model, recovered⟩
    obtain ⟨program, admissible, _⟩ := onlyAccepts model recovered
    exact ⟨program, admissible⟩
  · rintro ⟨program, admissible⟩
    exact ⟨_, accepts program admissible⟩
  · rintro ⟨program, admissible, rfl⟩
    exact accepts program admissible

end Programs

section Example

def kite : Polygon :=
  ⟨[⟨0, none⟩, ⟨1, none⟩, ⟨2, none⟩], .zero, ⟨.zero, .zero, .one⟩, .flat 5⟩

def kitePoints : List FixedVector :=
  [.zero, ⟨.one, .zero, .zero⟩, ⟨.zero, .one, .zero⟩]

/-- A sort with points in front of it and a polygon behind it, and bytes that nothing reaches
between the two and at the end. -/
def scatteredCode (gap tail : List UInt8) : Array UInt8 :=
  (sortBytes ⟨.zero, ⟨.zero, .zero, .one⟩⟩ 82 36 ++ stopBytes ++ gap ++
    pointsBytes 0 kitePoints ++ stopBytes ++ kite.bytes ++ stopBytes ++ tail).toArray

def scatteredProgram : Program :=
  .sort 36 82 (.points 0 kitePoints .stop) (.draw kite .stop) .stop

theorem scatteredProgram_laidOut : scatteredProgram.LaidOut (scatteredCode [255, 255] [9]) 0 := by
  decide +kernel

/-- What is recovered from the sort, its points and its polygon. -/
theorem scatteredCode_recovered : ∃ result,
    (Execution.fromEntry (scatteredCode [255, 255] [9]) 0).run
        (.start (scatteredCode [255, 255] [9])) = .ok () result ∧
      decompileAt (scatteredCode [255, 255] [9]) 0 =
        .ok (ofHistory (scatteredCode [255, 255] [9]) 0
          (scatteredProgram.events 0 0).reverse) := by
  have placed : kite.Placed (History.point? [.define 0 kitePoints]) := by
    rw [Polygon.Placed]
    decide
  have possible : History.Along History.Possible [] (scatteredProgram.events 0 0) :=
    ⟨trivial, placed, trivial⟩
  obtain ⟨result, ran, records⟩ :=
    exists_run_of_program scatteredProgram_laidOut (by decide) (by decide) possible
  exact ⟨result, ran, (decompileAt_of_records possible ran records).mpr ⟨.nil, rfl⟩⟩

end Example

end Model

end PaintOrder
