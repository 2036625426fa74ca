import PaintOrder.Proofs.Code.Recovery
import PaintOrder.Proofs.Model.Descendants
import PaintOrder.Proofs.Model.Emission

/-!
# What the code of a model recovers

The events of a submodel's code open the bucket of every submodel below it, with its parent,
its offset and where its code starts, and fill every bucket with the faces of that
submodel's partition.  Vertex numbers only grow, so the points of a submodel are still known
when its own faces come after those of its children.
-/

namespace PaintOrder.Model

open Code

variable {limit : Nat} {select : Selector} {model : Model}

/-- The bucket that a called submodel ends up with. -/
def calledBucket (limit : Nat) (select : Selector) (model : Model) (index entry : Nat) :
    Bucket where
  parent := (model.submodel index).parent
  offset := (model.submodel index).offset
  entry := entry
  faces := (model.partitionOf limit select index).faces.toArray

/-- What the code of a submodel after its points changes. -/
structure Recovers (limit : Nat) (select : Selector) (model : Model) (owner first : Nat)
    (code : Assembly) (address : Nat) (bucket : Bucket) (recovery result : Recovery) :
    Prop where
  points : ∀ number, number < first → result.point? number = recovery.point? number
  own : result.bucket? owner =
    some (bucket.add (model.partitionOf limit select owner).faces)
  called : ∀ index entry, (index, entry) ∈ code.entries address →
    result.bucket? index = some (model.calledBucket limit select index entry)
  others : ∀ index, index ≠ owner → index ∉ code.called →
    result.bucket? index = recovery.bucket? index
  size_le : ∀ bound, recovery.buckets.size ≤ bound → (∀ index ∈ code.called, index < bound) →
    result.buckets.size ≤ bound

/-- What code that calls something changes: only what it calls. -/
structure Opens (limit : Nat) (select : Selector) (model : Model) (first : Nat)
    (code : Assembly) (address : Nat) (recovery result : Recovery) : Prop where
  points : ∀ number, number < first → result.point? number = recovery.point? number
  called : ∀ index entry, (index, entry) ∈ code.entries address →
    result.bucket? index = some (model.calledBucket limit select index entry)
  others : ∀ index, index ∉ code.called → result.bucket? index = recovery.bucket? index
  size_le : ∀ bound, recovery.buckets.size ≤ bound → (∀ index ∈ code.called, index < bound) →
    result.buckets.size ≤ bound

theorem Nested.first_le_finish {owner base first finish : Nat} {order : List Nat}
    {code : Assembly} (nested : Nested limit select model owner base order first code finish) :
    first ≤ finish := by
  induction nested with
  | own => exact Nat.le_refl _
  | @nest owner base child first middle finish order code rest callee later calleeIH laterIH =>
      exact (le_tableOf_finish child first).trans (calleeIH.trans laterIH)

theorem knows_of_define {recovery result : Recovery} {table : VertexTable}
    (faithful : table.Faithful)
    (points : ∀ number, result.point? number =
      if table.base ≤ number ∧ number < table.base + table.positions.toList.length then
        table.positions.toList[number - table.base]?
      else recovery.point? number) : result.Knows table := by
  intro position index isIndex
  have inside := faithful.lt_finish isIndex
  obtain ⟨place, here, rfl⟩ := (faithful position index).mp isIndex
  rw [VertexTable.finish, VertexTable.size] at inside
  rw [points, if_pos ⟨by omega, by simpa using inside⟩, Nat.add_sub_cancel_left,
    Array.getElem?_toList, here]

/-- Code can be executed for a submodel: its points are known, its bucket is open, and nothing
that the code calls was called before. -/
structure Ready (table : VertexTable) (submodel : Nat) (bucket : Bucket) (code : Assembly)
    (recovery : Recovery) : Prop where
  distinct : (submodel :: code.called).Nodup
  known : recovery.Knows table
  opened : recovery.bucket? submodel = some bucket
  closed : ∀ index ∈ code.called, recovery.bucket? index = none

namespace Ready

variable {table : VertexTable} {submodel : Nat} {bucket : Bucket} {plane : Plane}
  {front back : Assembly} {recovery : Recovery}

theorem not_called (ready : Ready table submodel bucket front recovery) :
    submodel ∉ front.called :=
  (List.nodup_cons.mp ready.distinct).1

theorem front_distinct (ready : Ready table submodel bucket (.sort plane front back) recovery) :
    front.called.Nodup :=
  (List.nodup_cons.mp ready.distinct).2.of_append_left

theorem front_closed (ready : Ready table submodel bucket (.sort plane front back) recovery) :
    ∀ index ∈ front.called, recovery.bucket? index = none :=
  fun index member => ready.closed index (List.mem_append_left _ member)

theorem apart (ready : Ready table submodel bucket (.sort plane front back) recovery) :
    ∀ index ∈ front.called, index ∉ back.called := by
  intro index inFront inBack
  have distinct := (List.nodup_cons.mp ready.distinct).2
  exact (List.nodup_append.mp distinct).2.2 index inFront index inBack rfl

/-- What comes behind a front that only opens what it calls can be executed after it. -/
theorem behind (ready : Ready table submodel bucket (.sort plane front back) recovery)
    {between : Recovery} (known : between.Knows table)
    (others : ∀ index, index ∉ front.called →
      between.bucket? index = recovery.bucket? index) :
    Ready table submodel bucket back between := by
  obtain ⟨notInFront, notInBack⟩ := not_or.mp (mt List.mem_append.mpr ready.not_called)
  have distinct := (List.nodup_cons.mp ready.distinct).2.of_append_right
  refine ⟨List.nodup_cons.mpr ⟨notInBack, distinct⟩, known, ?_, ?_⟩
  · rw [others submodel notInFront, ready.opened]
  · intro index inBack
    rw [others index (fun inFront => ready.apart index inFront inBack)]
    exact ready.closed index (List.mem_append_right _ inBack)

end Ready

/-- What the call of a submodel and the points at its start leave. -/
structure Begins (limit : Nat) (select : Selector) (model : Model) (submodel first : Nat)
    (bucket : Bucket) (recovery result : Recovery) : Prop where
  points : ∀ number, number < first → result.point? number = recovery.point? number
  known : result.Knows (model.tableOf limit select submodel first)
  bucket_eq : ∀ index, result.bucket? index =
    if index = submodel then some bucket else recovery.bucket? index
  size_eq : result.buckets.size = max recovery.buckets.size (submodel + 1)

theorem begins (limit : Nat) (select : Selector) (model : Model) {recovery : Recovery}
    {submodel : Nat}
    (closed : recovery.bucket? submodel = none) (first : Nat) (bucket : Bucket) :
    ∃ result, (Event.performAll [.opened submodel bucket, .define first
        (model.tableOf limit select submodel first).positions.toList]).run recovery =
          .ok () result ∧
      Begins limit select model submodel first bucket recovery result := by
  obtain ⟨middle, opened, samePoints, size, buckets⟩ :=
    opened_run closed bucket
  obtain ⟨result, defined, sameBuckets, points⟩ := define_run middle first
    (model.tableOf limit select submodel first).positions.toList
  have base : (model.tableOf limit select submodel first).base = first :=
    tableOf_base submodel first
  refine ⟨result, ?_, ?_, ?_, ?_, ?_⟩
  · exact run_bind_eq_ok.mpr ⟨(), middle, opened, run_bind_eq_ok.mpr ⟨(), result, defined, rfl⟩⟩
  · intro number below
    rw [points, if_neg (by omega), Recovery.point?, samePoints]
    rfl
  · apply knows_of_define (tableOf_faithful submodel first)
    rwa [base]
  · intro index
    rw [Recovery.bucket?, sameBuckets]
    exact buckets index
  · rw [sameBuckets, size]

/-- After the call of a submodel and the points at its start, the code behind them can be
executed. -/
theorem Begins.ready {submodel first : Nat} {bucket : Bucket} {code : Assembly}
    {recovery result : Recovery}
    (begins : Begins limit select model submodel first bucket recovery result)
    (distinct : (submodel :: code.called).Nodup)
    (closed : ∀ index ∈ code.called, recovery.bucket? index = none) :
    Ready (model.tableOf limit select submodel first) submodel bucket code result := by
  refine ⟨distinct, begins.known, ?_, ?_⟩
  · rw [begins.bucket_eq, if_pos rfl]
  · intro index member
    have different : index ≠ submodel := by
      rintro rfl
      exact (List.nodup_cons.mp distinct).1 member
    rw [begins.bucket_eq, if_neg different, closed index member]

section Called

variable {caller child first address : Nat} {code : Assembly}
  {recovery begun result : Recovery}

/-- The bucket that a call opens. -/
def openedBucket (model : Model) (caller child entry : Nat) : Bucket where
  parent := some caller
  offset := (model.submodel child).offset
  entry := entry

/-- What the call of a submodel leaves, with the points at its start and the code behind
them. -/
structure Calling (limit : Nat) (select : Selector) (model : Model) (caller child first : Nat)
    (code : Assembly) (address : Nat) (recovery begun result : Recovery) : Prop where
  begins : Begins limit select model child first
    (model.openedBucket caller child (address + Assembly.callJump)) recovery begun
  recovers : Recovers limit select model child (model.tableOf limit select child first).finish
    code (address + Assembly.callJump +
      pointsSize (model.tableOf limit select child first).positions.toList.length)
    (model.openedBucket caller child (address + Assembly.callJump)) begun result

/-- A submodel is called if its code can be executed once its points are known and its bucket
is open. -/
theorem exists_calling (caller address : Nat) (code : Assembly)
    (distinct : (child :: code.called).Nodup)
    (closed : ∀ index ∈ child :: code.called, recovery.bucket? index = none)
    (runs : ∀ begun, Ready (model.tableOf limit select child first) child
        (model.openedBucket caller child (address + Assembly.callJump)) code begun →
      ∀ place, ∃ result,
        (Event.performAll ((code.program place).events child place)).run begun =
          .ok () result ∧
        Recovers limit select model child (model.tableOf limit select child first).finish code
          place (model.openedBucket caller child (address + Assembly.callJump)) begun result) :
    ∃ begun result,
      (Event.performAll (((Assembly.call child (model.submodel child).offset
        (model.submodelCode limit select child first code)).program address).events caller
          address)).run recovery = .ok () result ∧
      Calling limit select model caller child first code address recovery begun result := by
  obtain ⟨begun, beginRan, beginsChild⟩ := begins limit select model
    (closed child List.mem_cons_self) first
    (model.openedBucket caller child (address + Assembly.callJump))
  have ready := beginsChild.ready distinct
    (fun index member => closed index (List.mem_cons_of_mem _ member))
  obtain ⟨result, codeRan, recovers⟩ := runs begun ready (address + Assembly.callJump +
    pointsSize (model.tableOf limit select child first).positions.toList.length)
  refine ⟨begun, result, ?_, beginsChild, recovers⟩
  rw [Assembly.call_events]
  exact Event.performAll_append_eq_ok.mpr ⟨begun, beginRan, codeRan⟩

namespace Calling

/-- A call keeps the points with smaller numbers. -/
theorem points
    (calling : Calling limit select model caller child first code address recovery begun result) :
    ∀ number, number < first → result.point? number = recovery.point? number := by
  intro number small
  have below : first ≤ (model.tableOf limit select child first).finish :=
    le_tableOf_finish child first
  rw [calling.recovers.points number (by omega), calling.begins.points number small]

/-- A call keeps the buckets of all submodels that it does not open. -/
theorem others
    (calling : Calling limit select model caller child first code address recovery begun result) :
    ∀ index, index ∉ child :: code.called → result.bucket? index = recovery.bucket? index := by
  intro index absent
  obtain ⟨different, absentInside⟩ := not_or.mp (mt List.mem_cons.mpr absent)
  rw [calling.recovers.others index different absentInside, calling.begins.bucket_eq,
    if_neg different]

/-- A call opens a submodel and whatever its code opens. -/
theorem opens (linked : (model.submodel child).parent = some caller)
    (calling : Calling limit select model caller child first code address recovery begun result) :
    Opens limit select model first (.call child (model.submodel child).offset
      (model.submodelCode limit select child first code)) address recovery result := by
  refine ⟨calling.points, ?_, calling.others, ?_⟩
  · intro index entry member
    rcases List.mem_cons.mp member with here | inside
    · obtain ⟨rfl, rfl⟩ := Prod.mk.inj here
      rw [calling.recovers.own, calledBucket, linked]
      simp [openedBucket, Bucket.add]
    · exact calling.recovers.called index entry inside
  · intro bound room inside
    have childInside := inside child List.mem_cons_self
    apply calling.recovers.size_le bound
    · rw [calling.begins.size_eq]
      omega
    · intro index member
      exact inside index (List.mem_cons_of_mem _ member)

end Calling

end Called

/-- Points with smaller numbers than those of a call are still known after it. -/
theorem knows_of_points {owner base first : Nat} {recovery result : Recovery}
    (points : ∀ number, number < first → result.point? number = recovery.point? number)
    (known : recovery.Knows (model.tableOf limit select owner base))
    (below : (model.tableOf limit select owner base).finish ≤ first) :
    result.Knows (model.tableOf limit select owner base) := by
  intro position index isIndex
  have inside := (tableOf_faithful owner base).lt_finish isIndex
  rw [points index (by omega)]
  exact known position index isIndex

/-- Behind the call of a child, a submodel goes on as it could before. -/
theorem Calling.ready {owner base caller child first address : Nat} {plane : Plane}
    {code rest : Assembly} {bucket : Bucket} {recovery begun between : Recovery}
    (calling : Calling limit select model caller child first code address recovery begun
      between)
    (ready : Ready (model.tableOf limit select owner base) caller bucket
      (.sort plane (.call child (model.submodel child).offset
        (model.submodelCode limit select child first code)) rest) recovery)
    (below : (model.tableOf limit select owner base).finish ≤ first) :
    Ready (model.tableOf limit select owner base) caller bucket rest between :=
  ready.behind (knows_of_points calling.points ready.known below) calling.others

/-- What comes behind a call does not touch what was called. -/
theorem Opens.andThen {owner first middle address : Nat} {plane : Plane}
    {front rest : Assembly} {bucket : Bucket} {recovery between result : Recovery}
    (opens : Opens limit select model first front (address + Assembly.frontJump) recovery
      between)
    (below : first ≤ middle) (notInFront : owner ∉ front.called)
    (apart : ∀ index ∈ front.called, index ∉ rest.called)
    (recovers : Recovers limit select model owner middle rest
      (address + (Assembly.frontJump + front.code.length)) bucket between result) :
    Recovers limit select model owner first (.sort plane front rest) address bucket recovery
      result := by
  refine ⟨?_, recovers.own, ?_, ?_, ?_⟩
  · intro number small
    rw [recovers.points number (by omega), opens.points number small]
  · intro index entry member
    rcases List.mem_append.mp member with inFront | inRest
    · have called : index ∈ front.called := by
        rw [← Assembly.entries_fst]
        exact List.mem_map_of_mem inFront
      rw [recovers.others index (by rintro rfl; exact notInFront called) (apart index called)]
      exact opens.called index entry inFront
    · exact recovers.called index entry inRest
  · intro index different absent
    obtain ⟨absentInFront, absentInRest⟩ := not_or.mp (mt List.mem_append.mpr absent)
    rw [recovers.others index different absentInRest, opens.others index absentInFront]
  · intro bound room inside
    apply recovers.size_le bound
    · apply opens.size_le bound room
      intro index member
      exact inside index (List.mem_append_left _ member)
    · intro index member
      exact inside index (List.mem_append_right _ member)

/-- Drawing the faces of its partition recovers a submodel that calls nothing. -/
theorem Recovers.of_draws {owner first address : Nat} {table : VertexTable} {bucket : Bucket}
    {recovery result : Recovery}
    (draws : Draws owner bucket (model.partitionOf limit select owner).faces recovery result) :
    Recovers limit select model owner first
      (.ofPartition table (model.partitionOf limit select owner)) address bucket recovery
        result := by
  refine ⟨?_, draws.opened, ?_, ?_, ?_⟩
  · intro number _
    rw [Recovery.point?, draws.points]
    rfl
  · intro index entry member
    rw [Assembly.ofPartition_entries] at member
    cases member
  · intro index different _
    rw [draws.bucket_eq, if_neg different]
  · intro bound room _
    rw [draws.size]
    exact room

/-- A sort does what its front does and then what its back does. -/
theorem performAll_sort {plane : Plane} {front back : Assembly} {submodel address : Nat}
    {recovery between result : Recovery}
    (first : (Event.performAll ((front.program (address + Assembly.frontJump)).events submodel
      (address + Assembly.frontJump))).run recovery = .ok () between)
    (second : (Event.performAll ((back.program
      (address + (Assembly.frontJump + front.code.length))).events submodel
        (address + (Assembly.frontJump + front.code.length)))).run between = .ok () result) :
    (Event.performAll (((Assembly.sort plane front back).program address).events submodel
      address)).run recovery = .ok () result := by
  rw [Assembly.sort_events]
  exact Event.performAll_append_eq_ok.mpr ⟨between, first, second⟩

/-- The code of a submodel after its points recovers everything below it. -/
theorem Nested.recovers (tree : model.IsTree) {owner base first finish : Nat}
    {order : List Nat} {code : Assembly}
    (nested : Nested limit select model owner base order first code finish)
    (inRange : owner < model.size)
    (children : ∀ child ∈ order, child ∈ (model.submodel owner).children)
    {recovery : Recovery} {bucket : Bucket}
    (ready : Ready (model.tableOf limit select owner base) owner bucket code recovery)
    (below : (model.tableOf limit select owner base).finish ≤ first) (address : Nat) :
    ∃ result, (Event.performAll ((code.program address).events owner address)).run recovery =
        .ok () result ∧
      Recovers limit select model owner first code address bucket recovery result := by
  induction nested generalizing recovery bucket address with
  | own built writable =>
      obtain ⟨result, performed, draws⟩ :=
        ofPartition_draws ready.known ready.opened writable address
      exact ⟨result, performed, .of_draws draws⟩
  | @nest owner base child first middle finish order code rest callee later calleeIH laterIH =>
      obtain ⟨childInRange, linked⟩ :=
        tree.acknowledged owner child inRange (children child List.mem_cons_self)
      have calleeBelow := callee.first_le_finish
      have tableBelow : first ≤ (model.tableOf limit select child first).finish :=
        le_tableOf_finish child first
      -- The call, with the points of the child and everything below it.
      obtain ⟨begun, between, callRan, calling⟩ :=
        exists_calling owner (address + Assembly.frontJump) code ready.front_distinct
          ready.front_closed fun begun childReady place =>
            calleeIH childInRange
              (fun grandchild => (model.nestingOrder_perm child).mem_iff.mp) childReady
              (Nat.le_refl _) place
      -- The children that are left.
      obtain ⟨result, laterRan, laterRecovers⟩ := laterIH inRange
        (fun other member => children other (List.mem_cons_of_mem _ member))
        (calling.ready ready below) (by omega) _
      exact ⟨result, performAll_sort callRan laterRan,
        (calling.opens linked).andThen (by omega)
          (fun inFront => ready.not_called (List.mem_append_left _ inFront)) ready.apart
            laterRecovers⟩

end PaintOrder.Model
