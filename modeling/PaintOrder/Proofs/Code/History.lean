import Mathlib.Data.List.Range
import Mathlib.Tactic.Tauto
import PaintOrder.Proofs.Code.Recovery

/-!
# Histories of events

A history lists the events of an execution, the last one first.  It tells the point that each
vertex number stands for and what is known of each submodel, and so whether a further event is
possible.  Events can be performed exactly if each of them is possible after those before it.
-/

namespace PaintOrder.Code

section Polygons

variable {stored : Array (Option FixedVector)} {position : Nat}

/-- All corners of a polygon have the numbers of points. -/
def Polygon.Placed (point? : Nat → Option FixedVector) (polygon : Polygon) : Prop :=
  ∀ corner ∈ polygon.corners,
    0 ≤ corner.index.toInt ∧ (point? corner.index.toInt.toNat).isSome

def Corner.vertex (point? : Nat → Option FixedVector) (corner : Corner) : Vertex :=
  ⟨(point? corner.index.toInt.toNat).getD .zero, corner.uv⟩

/-- The face that a polygon draws. -/
def Polygon.face (point? : Nat → Option FixedVector) (polygon : Polygon) : Face :=
  ⟨polygon.corners.map (Corner.vertex point?), polygon.point, polygon.normal, polygon.surface⟩

theorem vertexOf_eq_ok {corner : Corner} {vertex : Vertex} :
    Execution.vertexOf stored position corner = .ok vertex ↔
      (0 ≤ corner.index.toInt ∧ (stored[corner.index.toInt.toNat]?).join.isSome) ∧
        vertex = corner.vertex fun number => (stored[number]?).join := by
  have negative : corner.index < 0 ↔ corner.index.toInt < 0 := by
    rw [Int16.lt_iff_toInt_lt]
    rfl
  rw [Execution.vertexOf, Corner.vertex]
  simp only [negative]
  by_cases natural : 0 ≤ corner.index.toInt
  · rw [if_neg (by omega)]
    cases (stored[corner.index.toInt.toNat]?).join with
    | none => simp
    | some point => simp [natural, eq_comm]
  · rw [if_pos (by omega)]
    simp [natural]

/-- A polygon is drawn if its corners are placed. -/
theorem faceOf_eq_ok {polygon : Polygon} {face : Face} :
    Execution.faceOf stored position polygon = .ok face ↔
      polygon.Placed (fun number => (stored[number]?).join) ∧
        face = polygon.face fun number => (stored[number]?).join := by
  let point? := fun number : Nat => (stored[number]?).join
  have image : ∀ vertices, List.Forall₂ (fun corner vertex => vertex = corner.vertex point?)
      polygon.corners vertices ↔ polygon.corners.map (Corner.vertex point?) = vertices := by
    intro vertices
    rw [← List.forall₂_eq_eq_eq, List.forall₂_map_left_iff]
    simp only [eq_comm]
  rw [Execution.faceOf, bind_eq_ok]
  simp only [pure_eq_ok, mapM_eq_ok, vertexOf_eq_ok, List.forall₂_and_left]
  constructor
  · rintro ⟨vertices, ⟨placed, related⟩, rfl⟩
    refine ⟨placed, ?_⟩
    rw [Polygon.face, (image vertices).mp related]
  · rintro ⟨placed, rfl⟩
    exact ⟨_, ⟨placed, (image _).mpr rfl⟩, rfl⟩

end Polygons

/-- An event defines the point of a vertex number. -/
def Event.Defines (number : Int) : Event → Prop
  | .define first positions => first ≤ number ∧ number < first + positions.length
  | .draw .. | .opened .. => False

namespace History

variable {entry submodel : Nat} {history events : List Event} {event : Event}

/-- The point that a vertex number stands for, as it was defined last. -/
def point? : List Event → Nat → Option FixedVector
  | [], _ => none
  | .define first positions :: earlier, number =>
      if first ≤ number ∧ number < first + positions.length then positions[number - first]?
      else point? earlier number
  | .draw .. :: earlier, number => point? earlier number
  | .opened .. :: earlier, number => point? earlier number

/-- What is known of a submodel after the root was entered. -/
def bucket? (entry : Nat) : List Event → Nat → Option Bucket
  | [], submodel => if submodel = 0 then some { entry := entry } else none
  | .define .. :: earlier, submodel => bucket? entry earlier submodel
  | .draw drawn _ polygon :: earlier, submodel =>
      if submodel = drawn then
        (bucket? entry earlier submodel).map (·.add [polygon.face (point? earlier)])
      else bucket? entry earlier submodel
  | .opened callee bucket :: earlier, submodel =>
      if submodel = callee then some bucket else bucket? entry earlier submodel

/-- The submodels that were called. -/
def called : List Event → List Nat
  | [] => []
  | .opened callee _ :: rest => callee :: called rest
  | .define .. :: rest => called rest
  | .draw .. :: rest => called rest

/-- How many submodels there is room for. -/
def size : List Event → Nat
  | [] => 1
  | .opened callee _ :: earlier => max (size earlier) (callee + 1)
  | .define .. :: earlier => size earlier
  | .draw .. :: earlier => size earlier

/-- The root and the submodels that were called are known, and no others. -/
theorem isSome_bucket? :
    (bucket? entry history submodel).isSome ↔ submodel ∈ 0 :: called history := by
  induction history with
  | nil =>
      rw [bucket?, called]
      split_ifs with isRoot <;> simp [isRoot]
  | cons event earlier ih =>
      cases event with
      | define => exact ih
      | draw =>
          rw [bucket?, called, ← ih]
          split_ifs <;> simp
      | opened callee bucket =>
          rw [bucket?, called]
          split_ifs with here
          · simp [here]
          · rw [ih]
            simp [here]

/-- Without calls of the root, the root has no offset. -/
theorem root_offset (uncalled : 0 ∉ called history) :
    ((bucket? entry history 0).getD {}).offset = .zero := by
  induction history with
  | nil => rfl
  | cons event earlier ih =>
      cases event with
      | define => exact ih uncalled
      | draw drawn position polygon =>
          rw [bucket?]
          split_ifs with isRoot
          · have known := ih uncalled
            cases earlierBucket : bucket? entry earlier 0 with
            | none => rfl
            | some bucket =>
                rw [earlierBucket] at known
                exact known
          · exact ih uncalled
      | opened callee bucket =>
          rw [called, List.mem_cons, not_or] at uncalled
          rw [bucket?, if_neg uncalled.1]
          exact ih uncalled.2

theorem isSome_point? {number : Int} :
    (0 ≤ number ∧ (point? history number.toNat).isSome) ↔
      ∃ event ∈ history, event.Defines number := by
  induction history with
  | nil => simp [point?]
  | cons event earlier ih =>
      rw [List.exists_mem_cons_iff, ← ih]
      cases event with
      | draw => simp [point?, Event.Defines]
      | opened => simp [point?, Event.Defines]
      | define first positions =>
          simp only [point?, Event.Defines]
          split_ifs with here
          · have inRange : number.toNat - first < positions.length := by omega
            simp only [List.getElem?_eq_getElem inRange, Option.isSome_some, and_true]
            omega
          · have elsewhere : ¬(first ≤ number ∧ number < first + positions.length) := by omega
            simp only [elsewhere, false_or]

theorem placed_iff {polygon : Polygon} :
    polygon.Placed (point? history) ↔
      ∀ corner ∈ polygon.corners, ∃ event ∈ history, event.Defines corner.index.toInt :=
  forall₂_congr fun _ _ => isSome_point?

theorem called_append (first second : List Event) :
    called (first ++ second) = called first ++ called second := by
  induction first with
  | nil => rfl
  | cons event rest ih => cases event <;> simp [called, ih]

theorem called_reverse (events : List Event) :
    called events.reverse = (called events).reverse := by
  induction events with
  | nil => rfl
  | cons event rest ih => cases event <;> simp [called, called_append, ih]

theorem mem_called {callee : Nat} {bucket : Bucket}
    (member : .opened callee bucket ∈ events) : callee ∈ called events := by
  obtain ⟨before, after, rfl⟩ := List.append_of_mem member
  simp [called_append, called]

/-- Calls of different submodels other than the root are possible one after the other. -/
theorem not_mem_called {before after : List Event} {callee : Nat} {bucket : Bucket}
    (distinct : (0 :: called (before ++ .opened callee bucket :: after)).Nodup) :
    callee ∉ 0 :: called (before.reverse ++ []) := by
  rw [called_append, called, List.nodup_cons, List.nodup_append] at distinct
  obtain ⟨notRoot, _, _, apart⟩ := distinct
  simp only [List.append_nil, called_reverse, List.mem_cons, List.mem_reverse, not_or]
  refine ⟨?_, ?_⟩
  · rintro rfl
    exact notRoot (by simp)
  · intro earlier
    exact apart callee earlier callee (by simp) rfl

theorem lt_size (known : submodel ∈ 0 :: called history) : submodel < size history := by
  induction history with
  | nil =>
      rw [List.mem_singleton.mp known]
      exact Nat.zero_lt_one
  | cons event earlier ih =>
      cases event with
      | define => exact ih known
      | draw => exact ih known
      | opened callee bucket =>
          have cases : submodel = callee ∨ submodel ∈ 0 :: called earlier := by
            simp only [called, List.mem_cons] at known ⊢
            tauto
          rw [size]
          rcases cases with rfl | old
          · omega
          · have := ih old
            omega

/-- The room is taken by the highest submodel. -/
theorem exists_size_eq (history : List Event) :
    ∃ highest ∈ 0 :: called history, size history = highest + 1 := by
  induction history with
  | nil => exact ⟨0, by simp, rfl⟩
  | cons event earlier ih =>
      obtain ⟨highest, known, isSize⟩ := ih
      cases event with
      | define => exact ⟨highest, known, isSize⟩
      | draw => exact ⟨highest, known, isSize⟩
      | opened callee bucket =>
          rw [size, isSize]
          rcases Nat.le_total callee highest with below | above
          · refine ⟨highest, ?_, by omega⟩
            simp only [called, List.mem_cons] at known ⊢
            tauto
          · exact ⟨callee, by simp [called], by omega⟩

theorem perm_of_complete (distinct : (0 :: called history).Nodup)
    (complete : ∀ index < size history, index ∈ 0 :: called history) :
    (0 :: called history).Perm (List.range (size history)) :=
  (List.perm_ext_iff_of_nodup distinct List.nodup_range).mpr fun index =>
    ⟨fun known => List.mem_range.mpr (lt_size known),
      fun inRange => complete index (List.mem_range.mp inRange)⟩

theorem size_of_complete (distinct : (0 :: called history).Nodup)
    (complete : ∀ index < size history, index ∈ 0 :: called history) :
    size history = (called history).length + 1 := by
  simpa using (perm_of_complete distinct complete).length_eq.symm

/-- The submodels up to the highest one are known exactly if each of them was called. -/
theorem complete_iff (distinct : (0 :: called history).Nodup) :
    (∀ index < size history, index ∈ 0 :: called history) ↔
      (called history).Perm (List.range' 1 (called history).length) := by
  have whole : (0 :: called history).Perm
      (List.range ((called history).length + 1)) ↔
        (called history).Perm (List.range' 1 (called history).length) := by
    rw [List.range_eq_range', List.range'_succ, List.perm_cons]
  rw [← whole]
  constructor
  · intro complete
    rw [← size_of_complete distinct complete]
    exact perm_of_complete distinct complete
  · intro everything index inRange
    obtain ⟨highest, known, size⟩ := exists_size_eq history
    have := List.mem_range.mp (everything.mem_iff.mp known)
    exact everything.mem_iff.mpr (List.mem_range.mpr (by omega))

/-- An event is possible after a history. -/
def Possible (history : List Event) : Event → Prop
  | .define .. => True
  | .draw _ _ polygon => polygon.Placed (point? history)
  | .opened callee _ => callee ∉ 0 :: called history

/-- An event does not draw for a submodel that was not called. -/
def Opened (history : List Event) : Event → Prop
  | .draw submodel .. => submodel ∈ 0 :: called history
  | .define .. | .opened .. => True

/-- Every event satisfies a claim about it and the events before it. -/
def Along (claim : List Event → Event → Prop) : List Event → List Event → Prop
  | _, [] => True
  | history, event :: rest => claim history event ∧ Along claim (event :: history) rest

section Along

variable {claim : List Event → Event → Prop} {first second : List Event}

theorem along_append : Along claim history (first ++ second) ↔
    Along claim history first ∧ Along claim (first.reverse ++ history) second := by
  induction first generalizing history with
  | nil => simp [Along]
  | cons event rest ih =>
      rw [List.cons_append, Along, Along, ih, List.reverse_cons, List.append_assoc,
        List.singleton_append, and_assoc]

theorem along_iff : Along claim history events ↔
    ∀ before event after, events = before ++ event :: after →
      claim (before.reverse ++ history) event := by
  induction events generalizing history with
  | nil => simp [Along]
  | cons head rest ih =>
      rw [Along, ih]
      constructor
      · rintro ⟨here, later⟩ before event after split
        cases before with
        | nil =>
            obtain ⟨rfl, rfl⟩ := List.cons.inj split
            exact here
        | cons other before =>
            obtain ⟨rfl, rest_eq⟩ := List.cons.inj split
            rw [List.reverse_cons, List.append_assoc]
            exact later before event after rest_eq
      · intro each
        refine ⟨each [] head rest rfl, ?_⟩
        intro before event after split
        have claimed := each (head :: before) event after (by rw [split]; rfl)
        rwa [List.reverse_cons, List.append_assoc] at claimed

end Along

/-- After possible events no submodel was called twice, and the root was not called. -/
theorem nodup_called (distinct : (0 :: called history).Nodup)
    (possible : Along Possible history events) :
    (0 :: called (events.reverse ++ history)).Nodup := by
  induction events generalizing history with
  | nil => exact distinct
  | cons event rest ih =>
      rw [List.reverse_cons, List.append_assoc]
      refine ih ?_ possible.2
      cases event with
      | define => exact distinct
      | draw => exact distinct
      | opened callee bucket =>
          have fresh : callee ∉ 0 :: called history := possible.1
          rw [List.mem_cons, not_or] at fresh
          rw [List.nodup_cons] at distinct
          simp only [List.singleton_append, called, List.nodup_cons, List.mem_cons, not_or]
          exact ⟨⟨Ne.symm fresh.1, distinct.1⟩, fresh.2, distinct.2⟩

theorem still_called (known : submodel ∈ 0 :: called history) (later : List Event) :
    submodel ∈ 0 :: called (later ++ history) := by
  rw [called_append]
  simp only [List.mem_cons, List.mem_append] at known ⊢
  tauto

/-- A program that is executed for a submodel that was called draws for none that was not. -/
theorem along_opened (program : Program) {address : Nat}
    (known : submodel ∈ 0 :: called history) :
    Along Opened history (program.events submodel address) := by
  induction program generalizing submodel address history with
  | stop => trivial
  | points first positions rest ih => exact ⟨trivial, ih known⟩
  | draw polygon rest ih => exact ⟨known, ih known⟩
  | sort frontAt backAt front back rest frontIH backIH restIH =>
      have behindFront := still_called known (front.events submodel frontAt).reverse
      have behindBack := still_called behindFront (back.events submodel backAt).reverse
      exact along_append.mpr
        ⟨frontIH known, along_append.mpr ⟨backIH behindFront, restIH behindBack⟩⟩
  | call index offset target callee rest calleeIH restIH =>
      let opening : Event :=
        .opened index { parent := some submodel, offset := offset, entry := target }
      have begun : submodel ∈ 0 :: called (opening :: history) := still_called known [opening]
      have calleeKnown : index ∈ 0 :: called (opening :: history) := by simp [called, opening]
      have returned := still_called begun (callee.events index target).reverse
      exact ⟨trivial, along_append.mpr ⟨calleeIH calleeKnown, restIH returned⟩⟩

end History

/-- What was recovered is what a history tells. -/
structure Recovery.Records (entry : Nat) (history : List Event) (recovery : Recovery) :
    Prop where
  point_eq : recovery.point? = History.point? history
  bucket_eq : recovery.bucket? = History.bucket? entry history
  size_eq : recovery.buckets.size = History.size history

namespace Recovery.Records

variable {entry : Nat} {history events : List Event} {event : Event}
  {recovery result : Recovery}

theorem entered (data : Array UInt8) (entry : Nat) :
    Records entry [] { Recovery.start data with buckets := #[some { entry := entry }] } := by
  refine ⟨rfl, ?_, rfl⟩
  funext index
  cases index <;> rfl

/-- A possible event can be performed, and leaves what the longer history tells. -/
theorem perform_of_possible (records : recovery.Records entry history)
    (isOpen : History.Opened history event) (possible : History.Possible history event) :
    ∃ result, event.perform.run recovery = .ok () result ∧
      result.Records entry (event :: history) := by
  cases event with
  | define first positions =>
      obtain ⟨result, ran, sameBuckets, points⟩ := define_run recovery first positions
      refine ⟨result, ran, ?_, ?_, ?_⟩
      · funext number
        rw [points, records.point_eq, History.point?]
      · funext index
        rw [bucket?, sameBuckets]
        exact congrFun records.bucket_eq index
      · rw [sameBuckets]
        exact records.size_eq
  | draw submodel position polygon =>
      obtain ⟨bucket, isBucket⟩ :
          ∃ bucket, History.bucket? entry history submodel = some bucket :=
        Option.isSome_iff_exists.mp (History.isSome_bucket?.mpr isOpen)
      have placed : polygon.Placed recovery.point? := by
        rw [records.point_eq]
        exact possible
      have made : Execution.faceOf recovery.points position polygon =
          .ok (polygon.face recovery.point?) :=
        faceOf_eq_ok.mpr ⟨placed, rfl⟩
      obtain ⟨result, added, draws⟩ := addFace_draws
        ((congrFun records.bucket_eq submodel).trans isBucket) (polygon.face recovery.point?)
      refine ⟨result, Event.perform_draw_eq_ok.mpr ⟨_, made, added⟩, ?_, ?_, ?_⟩
      · funext number
        rw [point?, draws.points]
        exact congrFun records.point_eq number
      · funext index
        rw [draws.bucket_eq, History.bucket?, records.point_eq, records.bucket_eq]
        split_ifs with here
        · rw [here, isBucket]
          rfl
        · rfl
      · rw [draws.size]
        exact records.size_eq
  | opened callee bucket =>
      have closed : recovery.bucket? callee = none := by
        rw [records.bucket_eq, ← Option.not_isSome_iff_eq_none, History.isSome_bucket?]
        exact possible
      obtain ⟨result, ran, samePoints, size, bucket_eq⟩ := opened_run closed bucket
      refine ⟨result, ran, ?_, ?_, ?_⟩
      · funext number
        rw [point?, samePoints]
        exact congrFun records.point_eq number
      · funext index
        rw [bucket_eq, History.bucket?, records.bucket_eq]
      · rw [size, records.size_eq, History.size]

/-- Only possible events can be performed. -/
theorem possible_of_perform (records : recovery.Records entry history)
    (performed : event.perform.run recovery = .ok () result) :
    History.Possible history event := by
  cases event with
  | define => trivial
  | draw submodel position polygon =>
      obtain ⟨face, made, _⟩ := Event.perform_draw_eq_ok.mp performed
      have placed : polygon.Placed recovery.point? := (faceOf_eq_ok.mp made).1
      rwa [records.point_eq] at placed
  | opened callee bucket =>
      have closed : recovery.bucket? callee = none :=
        (Event.perform_opened_eq_ok.mp performed).1
      rwa [records.bucket_eq, ← Option.not_isSome_iff_eq_none, History.isSome_bucket?] at closed

theorem performAll_of_possible (records : recovery.Records entry history)
    (isOpen : History.Along History.Opened history events)
    (possible : History.Along History.Possible history events) :
    ∃ result, (Event.performAll events).run recovery = .ok () result ∧
      result.Records entry (events.reverse ++ history) := by
  induction events generalizing history recovery with
  | nil => exact ⟨recovery, rfl, records⟩
  | cons event rest ih =>
      obtain ⟨middle, performed, middleRecords⟩ :=
        records.perform_of_possible isOpen.1 possible.1
      obtain ⟨result, restPerformed, resultRecords⟩ := ih middleRecords isOpen.2 possible.2
      refine ⟨result, run_bind_eq_ok.mpr ⟨(), middle, performed, restPerformed⟩, ?_⟩
      rwa [List.reverse_cons, List.append_assoc]

theorem possible_of_performAll (records : recovery.Records entry history)
    (isOpen : History.Along History.Opened history events)
    (performed : (Event.performAll events).run recovery = .ok () result) :
    History.Along History.Possible history events := by
  induction events generalizing history recovery with
  | nil => trivial
  | cons event rest ih =>
      obtain ⟨_, middle, first, later⟩ := run_bind_eq_ok.mp performed
      have possible := records.possible_of_perform first
      obtain ⟨_, again, middleRecords⟩ := records.perform_of_possible isOpen.1 possible
      obtain rfl := (EStateM.Result.ok.inj (first.symm.trans again)).2
      exact ⟨possible, ih middleRecords isOpen.2 later⟩

end Recovery.Records

end PaintOrder.Code
