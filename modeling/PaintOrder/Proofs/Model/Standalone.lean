import PaintOrder.Proofs.Code.Subcode
import PaintOrder.Proofs.Model.Capacity
import PaintOrder.Proofs.Model.Coverage

/-!
# Submodels stand on their own

Every submodel has a block of points of its own, and the blocks share one range of numbers
without overlapping.  The polygons of a submodel only use the numbers of its own block, so the
code of a submodel can be executed from its own entry, without the code of what it is a part
of: its faces are the same.
-/

namespace PaintOrder.Model

open Code

variable {limit scratchSize : Nat} {select : Selector} {model compiled : Model}
  {rest : Assembly} {finish : Nat}

section Blocks

theorem tableOf_distinct (index base : Nat) :
    (model.tableOf limit select index base).positions.toList.Nodup :=
  (VertexTable.insertFaces_numbers base _).distinct

/-- The blocks behind the points of a submodel number on from the first free number. -/
theorem Nested.blocks {owner base first finish : Nat} {order : List Nat} {code : Assembly}
    (nested : Nested limit select model owner base order first code finish) :
    Consecutive first code.blocks finish := by
  induction nested with
  | own built writable =>
      rw [Assembly.blocks_ofPartition]
      rfl
  | @nest owner base child first middle finish order code rest callee later calleeIH laterIH =>
      rw [tableOf_finish] at calleeIH
      have called : Consecutive first (Assembly.call child (model.submodel child).offset
          (model.submodelCode limit select child first code)).blocks middle :=
        ⟨rfl, tableOf_distinct child first, calleeIH⟩
      exact called.append laterIH

/-- What a submodel draws itself are the faces of its partition. -/
theorem Nested.ownPolygons {owner base first finish : Nat} {order : List Nat} {code : Assembly}
    (nested : Nested limit select model owner base order first code finish) :
    ∀ polygon ∈ code.ownPolygons, ∃ face,
      Emission.Writable (model.tableOf limit select owner base) face ∧
        polygon = Emission.polygonOf (model.tableOf limit select owner base) face := by
  induction nested with
  | own built writable =>
      intro polygon member
      rw [Assembly.ownPolygons_ofPartition] at member
      obtain ⟨face, inPartition, rfl⟩ := List.mem_map.mp member
      exact ⟨face, writable face inPartition, rfl⟩
  | nest callee later calleeIH laterIH => exact laterIH

end Blocks

/-- Whatever a submodel calls is the code of a submodel. -/
theorem Nested.exists_of_calls {owner base first finish address index entry : Nat}
    {order : List Nat} {code callee : Assembly}
    (nested : Nested limit select model owner base order first code finish)
    (calls : code.Calls address index entry callee) :
    ∃ base rest finish, callee = model.submodelCode limit select index base rest ∧
      Nested limit select model index base (model.nestingOrder index)
        (model.tableOf limit select index base).finish rest finish := by
  induction nested generalizing address with
  | own built writable =>
      have listed := calls.mem_entries
      rw [Assembly.ofPartition_entries] at listed
      cases listed
  | nest callee later calleeIH laterIH =>
      cases calls with
      | front inFront =>
          cases inFront with
          | here => exact ⟨_, _, _, rfl, callee⟩
          | nested inside =>
              cases inside with
              | points behind => exact calleeIH behind
      | back behind => exact laterIH behind

section Recovery

/-- The code of a submodel adds the faces of its partition to the bucket for which it is
executed, whatever submodel that bucket is taken for. -/
theorem Nested.adds_faces (tree : model.IsTree) {owner base first finish : Nat}
    {order : List Nat} {code : Assembly}
    (nested : Nested limit select model owner base order first code finish)
    (inRange : owner < model.size)
    (children : ∀ child ∈ order, child ∈ (model.submodel owner).children) {label : Nat}
    {recovery : Recovery} {bucket : Bucket}
    (ready : Ready (model.tableOf limit select owner base) label bucket code recovery)
    (below : (model.tableOf limit select owner base).finish ≤ first) (address : Nat) :
    ∃ result, (Event.performAll ((code.program address).events label address)).run recovery =
        .ok () result ∧
      result.bucket? label = some (bucket.add (model.partitionOf limit select owner).faces) := by
  induction nested generalizing recovery address with
  | own built writable =>
      obtain ⟨result, performed, draws⟩ :=
        ofPartition_draws ready.known ready.opened writable address
      exact ⟨result, performed, draws.opened⟩
  | @nest owner base child first middle finish order code rest callee later calleeIH laterIH =>
      obtain ⟨childInRange, linked⟩ :=
        tree.acknowledged owner child inRange (children child List.mem_cons_self)
      have calleeBelow := callee.first_le_finish
      have tableBelow : first ≤ (model.tableOf limit select child first).finish :=
        le_tableOf_finish child first
      -- The call, with the points of the child and everything below it.
      obtain ⟨begun, between, callRan, calling⟩ :=
        exists_calling label (address + Assembly.frontJump) code ready.front_distinct
          ready.front_closed fun begun childReady place =>
            callee.recovers tree childInRange
              (fun grandchild => (model.nestingOrder_perm child).mem_iff.mp) childReady
              (Nat.le_refl _) place
      -- The children that are left, and the faces.
      obtain ⟨result, laterRan, added⟩ := laterIH inRange
        (fun other member => children other (List.mem_cons_of_mem _ member))
        (calling.ready ready below) (by omega) _
      exact ⟨result, performAll_sort callRan laterRan, added⟩

/-- A submodel and all that it calls are different submodels. -/
theorem Nested.called_distinct (tree : model.IsTree) {index base first finish : Nat}
    {code : Assembly} (inRange : index < model.size)
    (nested : Nested limit select model index base (model.nestingOrder index) first code
      finish) : (index :: code.called).Nodup := by
  obtain ⟨levels, called⟩ := nested.called_eq
  have distinct : (model.family (levels + 1) index).Nodup := tree.family_nodup inRange
  rwa [family, ← called levels (Nat.le_refl _)] at distinct

/-- Below a submodel there is no root, and no submodel twice. -/
theorem Nested.called_below (tree : model.IsTree) {index base first finish : Nat}
    {code : Assembly} (inRange : index < model.size)
    (nested : Nested limit select model index base (model.nestingOrder index) first code
      finish) : (0 :: code.called).Nodup := by
  obtain ⟨levels, called⟩ := nested.called_eq
  refine List.nodup_cons.mpr ⟨?_, (nested.called_distinct tree inRange).of_cons⟩
  intro rootCalled
  rw [called levels (Nat.le_refl _)] at rootCalled
  obtain ⟨child, isChild, inFamily⟩ := List.mem_flatMap.mp rootCalled
  obtain ⟨childInRange, linked⟩ := tree.parent_of_mem_nestingOrder inRange isChild
  obtain ⟨_, steps, descends⟩ := tree.descends_of_mem_family childInRange inFamily
  have parented : ∃ parent, (model.submodel 0).parent = some parent := by
    cases descends with
    | itself => exact ⟨index, linked⟩
    | child above isLinked => exact ⟨_, isLinked⟩
  obtain ⟨parent, isParent⟩ := parented
  rw [tree.rootless] at isParent
  cases isParent

end Recovery

/-- The code of a submodel in the code of the whole model. -/
structure Piece (limit : Nat) (select : Selector) (model compiled : Model)
    (index base : Nat) (rest : Assembly) : Prop where
  nested : ∃ finish, Nested limit select model index base (model.nestingOrder index)
    (model.tableOf limit select index base).finish rest finish
  fits : (model.submodelCode limit select index base rest).Fits
  holds : Holds compiled.data (compiled.submodel index).entry
    (model.submodelCode limit select index base rest).code
  /-- What it calls starts where that is recorded to start. -/
  entries : ∀ other place, (other, place) ∈ (model.submodelCode limit select index base
    rest).entries (compiled.submodel index).entry → (compiled.submodel other).entry = place

/-- The corners of a polygon are numbers in the block of points at an entry. -/
def WithinBlock (data : Array UInt8) (entry : Nat) (polygon : Polygon) : Prop :=
  ∃ first positions, Instruction.at data entry = .ok (.points first positions) ∧
    ∀ corner ∈ polygon.corners,
      first ≤ corner.index.toInt ∧ corner.index.toInt < first + positions.length

namespace Piece

variable {index base : Nat}

/-- What the code of a submodel draws itself has its corners in the block at its start. -/
theorem withinBlock (piece : Piece limit select model compiled index base rest)
    {polygon : Polygon} (own : polygon ∈ rest.ownPolygons) :
    WithinBlock compiled.data (compiled.submodel index).entry polygon := by
  obtain ⟨finish, nested⟩ := piece.nested
  obtain ⟨face, writable, rfl⟩ := nested.ownPolygons polygon own
  have laidOut := Assembly.laidOut piece.fits piece.holds
  refine ⟨base, _, laidOut.1, ?_⟩
  intro corner member
  obtain ⟨vertex, inFace, rfl⟩ := List.mem_map.mp member
  obtain ⟨number, isNumber, fits⟩ := writable.numbered vertex inFace
  have faithful : (model.tableOf limit select index base).Faithful := tableOf_faithful _ _
  have before := faithful.lt_finish isNumber
  obtain ⟨place, _, counted⟩ := (faithful vertex.position number).mp isNumber
  rw [tableOf_base] at counted
  rw [tableOf_finish] at before
  rw [Emission.cornerOf, isNumber, Option.getD_some, toInt_numberWord fits]
  omega

end Piece

namespace Compiled

theorem root_piece (result : Compiled limit select model compiled rest finish) :
    Piece limit select model compiled 0 0 rest := by
  obtain ⟨rootEntry, calledEntry⟩ := result.entry_eq
  refine ⟨⟨finish, result.nested⟩, result.fits, ?_, ?_⟩
  · rw [rootEntry]
    exact result.holds
  · rw [rootEntry]
    exact calledEntry

/-- What the root calls is the code of a submodel. -/
theorem piece_of_calls (result : Compiled limit select model compiled rest finish)
    {index entry : Nat} {callee : Assembly}
    (calls : (model.submodelCode limit select 0 0 rest).Calls 0 index entry callee) :
    ∃ base code, callee = model.submodelCode limit select index base code ∧
      Piece limit select model compiled index base code := by
  obtain ⟨_, calledEntry⟩ := result.entry_eq
  have isEntry := calledEntry index entry calls.mem_entries
  have inRest : rest.Calls
      (0 + pointsSize (model.tableOf limit select 0 0).positions.toList.length) index entry
        callee := by
    cases calls with
    | points behind => exact behind
  obtain ⟨base, code, last, rfl, nested⟩ := result.nested.exists_of_calls inRest
  refine ⟨base, code, rfl, ⟨last, nested⟩, calls.fits result.fits, ?_, ?_⟩
  · rw [isEntry]
    exact calls.holds result.fits result.holds
  · rw [isEntry]
    intro other place listed
    obtain ⟨deeper, further⟩ := Assembly.exists_calls_of_mem_entries listed
    exact calledEntry other place (calls.trans further).mem_entries

/-- Every submodel has its code somewhere in the code of the root. -/
theorem exists_piece (result : Compiled limit select model compiled rest finish) {index : Nat}
    (inRange : index < model.size) :
    ∃ base code, Piece limit select model compiled index base code := by
  obtain ⟨_, inside⟩ := result.nested.called_root result.tree
  rcases List.mem_cons.mp ((inside index).mpr inRange) with rfl | called
  · exact ⟨0, rest, result.root_piece⟩
  · obtain ⟨entry, member⟩ := Assembly.exists_entry called
      (0 + pointsSize (model.tableOf limit select 0 0).positions.toList.length)
    obtain ⟨callee, calls⟩ := Assembly.exists_calls_of_mem_entries member
    obtain ⟨base, code, _, piece⟩ := result.piece_of_calls (.points calls)
    exact ⟨base, code, piece⟩

/-- Whatever an execution of the root draws for a submodel has its corners in the block of
that submodel. -/
theorem withinBlock (result : Compiled limit select model compiled rest finish)
    {submodel position : Nat} {polygon : Polygon}
    (draws : Event.draw submodel position polygon ∈
      ((model.submodelCode limit select 0 0 rest).program 0).events 0 0) :
    WithinBlock compiled.data (compiled.submodel submodel).entry polygon := by
  rcases Assembly.mem_ownPolygons_of_draws draws with ⟨rfl, own⟩ | ⟨entry, callee, calls, own⟩
  · exact result.root_piece.withinBlock own
  · obtain ⟨base, code, rfl, piece⟩ := result.piece_of_calls calls
    exact piece.withinBlock own

/-- A submodel starts before its children. -/
theorem entry_lt (result : Compiled limit select model compiled rest finish)
    {parent child : Nat} (linked : (model.submodel child).parent = some parent) :
    (compiled.submodel parent).entry < (compiled.submodel child).entry := by
  have inRange := (result.tree.mem_children linked).1
  obtain ⟨base, code, piece⟩ := result.exists_piece inRange
  obtain ⟨finish, nested⟩ := piece.nested
  obtain ⟨levels, called⟩ := nested.called_eq
  have isCalled : child ∈ code.called := by
    rw [called (levels + 1) (Nat.le_succ _)]
    exact List.mem_flatMap.mpr
      ⟨child, result.tree.mem_nestingOrder linked, List.mem_cons_self⟩
  obtain ⟨place, member⟩ := Assembly.exists_entry isCalled ((compiled.submodel parent).entry +
    pointsSize (model.tableOf limit select parent base).positions.toList.length)
  obtain ⟨callee, calls⟩ := Assembly.exists_calls_of_mem_entries member
  have ahead := calls.lt_entry
  rw [piece.entries _ place member]
  omega

theorem entry_lt_of_descends (result : Compiled limit select model compiled rest finish)
    {steps ancestor index : Nat} (descends : model.Descends (steps + 1) ancestor index) :
    (compiled.submodel ancestor).entry < (compiled.submodel index).entry := by
  induction steps generalizing index with
  | zero =>
      cases descends with
      | child above linked =>
          cases above
          exact result.entry_lt linked
  | succ steps ih =>
      cases descends with
      | child above linked => exact Nat.lt_trans (ih above) (result.entry_lt linked)

end Compiled

/-- Executing a submodel from its own entry recovers its faces as if it were the root, without
executing the points of anything that it is a part of.  Only the nesting can stop it. -/
def RunsAlone (limit : Nat) (select : Selector) (model compiled : Model) (index : Nat) : Prop :=
  (∃ left, (Execution.fromEntry compiled.data (compiled.submodel index).entry).run
    (.start compiled.data) = .error (.format (.tooDeep nestingLimit)) left) ∨
  ∃ result bucket partition,
    (Execution.fromEntry compiled.data (compiled.submodel index).entry).run
      (.start compiled.data) = .ok () result ∧
    result.bucket? 0 = some bucket ∧
    Partition.build limit select (model.submodel index).faces = .ok partition ∧
    bucket.faces.toList = partition.faces ∧
    ∀ steps ancestor, model.Descends (steps + 1) ancestor index →
      result.executed.getD (compiled.submodel ancestor).entry false = false

/-- From its own entry, the code of a submodel begins in the place of the root. -/
theorem Piece.exists_ready {index base : Nat}
    (piece : Piece limit select model compiled index base rest) (tree : model.IsTree)
    (inRange : index < model.size) (entry : Nat) :
    ∃ begun, (Event.define base
        (model.tableOf limit select index base).positions.toList).perform.run
          { Recovery.start compiled.data with buckets := #[some { entry := entry }] } =
            .ok () begun ∧
      Ready (model.tableOf limit select index base) 0 { entry := entry } rest begun := by
  obtain ⟨finish, nested⟩ := piece.nested
  have distinct := nested.called_below tree inRange
  obtain ⟨begun, defined, sameBuckets, points⟩ :=
    define_run { Recovery.start compiled.data with buckets := #[some { entry := entry }] } base
      (model.tableOf limit select index base).positions.toList
  refine ⟨begun, defined, distinct, ?_, ?_, ?_⟩
  · apply knows_of_define (tableOf_faithful index base)
    rwa [tableOf_base]
  · rw [Recovery.bucket?, sameBuckets]
    rfl
  · intro other called
    rw [Recovery.bucket?, sameBuckets]
    cases other with
    | zero => exact absurd called (List.nodup_cons.mp distinct).1
    | succ other => rfl

theorem Compiled.runsAlone (result : Compiled limit select model compiled rest finish)
    {index : Nat} (inRange : index < model.size) :
    RunsAlone limit select model compiled index := by
  obtain ⟨base, code, piece⟩ := result.exists_piece inRange
  obtain ⟨last, nested⟩ := piece.nested
  let entry := (compiled.submodel index).entry
  obtain ⟨begun, defined, ready⟩ := piece.exists_ready result.tree inRange entry
  obtain ⟨recovery, performed, added⟩ := nested.adds_faces result.tree inRange
    (fun child => (model.nestingOrder_perm index).mem_iff.mp) ready (Nat.le_refl _)
    (entry + pointsSize (model.tableOf limit select index base).positions.toList.length)
  have ends := Assembly.fromEntry_ends piece.fits piece.holds
    (run_bind_eq_ok.mpr ⟨(), begun, defined, performed⟩)
  by_cases shallow : code.depth ≤ nestingLimit
  · rw [Ends, if_pos (by exact shallow)] at ends
    have built := nested.built index List.mem_cons_self
    refine .inr ⟨_, _, _, ends, added, built, by simp [Bucket.add], ?_⟩
    intro steps ancestor descends
    have before := result.entry_lt_of_descends descends
    have absent : (compiled.submodel ancestor).entry ∉
        ((model.submodelCode limit select index base code).program entry).addresses entry := by
      intro executed
      have := Assembly.addresses_inside piece.fits _ executed
      omega
    rw [getD_markAll absent]
    exact Recovery.start_fresh _ _
  · rw [Ends, if_neg (by exact shallow)] at ends
    exact .inl ends

/-- The point blocks all are of the kind that numbers from a first number on.  They number
their points one after the other from zero on, and none of them lists a point twice; every
polygon that an execution draws for a submodel has its corners in the block at that submodel's
entry. -/
def NumbersApart (compiled : Model) : Prop :=
  ∃ instructions finish, disassemble compiled.data 0 = .ok instructions ∧
    (∀ position first positions, (position, .points first positions) ∈ instructions →
      Holds compiled.data position (wordBytes Opcode.pointsFrom.word)) ∧
    Consecutive 0 (pointBlocks instructions) finish ∧
    ∃ program : Program, program.LaidOut compiled.data 0 ∧
      (program.addresses 0).Perm (instructions.map Prod.fst) ∧
      ∀ submodel position polygon,
        Event.draw submodel position polygon ∈ program.events 0 0 →
          WithinBlock compiled.data (compiled.submodel submodel).entry polygon

theorem Compiled.numbersApart (result : Compiled limit select model compiled rest finish) :
    NumbersApart compiled := by
  let code := model.submodelCode limit select 0 0 rest
  have behindRoot := result.nested.blocks
  rw [tableOf_finish] at behindRoot
  have blocks : Consecutive 0 code.blocks finish := ⟨rfl, tableOf_distinct 0 0, behindRoot⟩
  rw [← pointBlocks_instructions code 0] at blocks
  refine ⟨code.instructions 0, finish, result.disassemble_eq, ?_, blocks, code.program 0,
    Assembly.laidOut result.fits result.holds, (code.starts_perm 0).symm, ?_⟩
  · intro position first positions listed
    exact holds_pointsFrom (Assembly.holds_points result.fits result.holds listed)
  · intro submodel position polygon draws
    exact result.withinBlock draws

/-- The points of compiled submodels are numbered apart from each other, and no polygon uses
those of another submodel.  So every submodel runs alone. -/
theorem compiled_submodels_run_alone
    (succeeds : model.compileWith limit scratchSize select = .ok compiled) :
    NumbersApart compiled ∧
      ∀ index, index < model.size → RunsAlone limit select model compiled index := by
  obtain ⟨rest, finish, result⟩ := compileWith_eq_ok succeeds
  exact ⟨result.numbersApart, fun index inRange => result.runsAlone inRange⟩

theorem crossedRooms_run_alone : ∃ compiled, crossedRooms.compile 3 {} = .ok compiled ∧
    NumbersApart compiled ∧ ∀ index, index < crossedRooms.size →
      RunsAlone 3 (Splitter.leastCost 6) crossedRooms compiled index := by
  obtain ⟨compiled, succeeds⟩ := crossedRooms_compiles
  exact ⟨compiled, succeeds, compiled_submodels_run_alone succeeds⟩

end PaintOrder.Model
