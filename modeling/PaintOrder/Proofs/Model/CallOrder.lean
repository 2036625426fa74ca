import PaintOrder.Proofs.Code.Retrace
import PaintOrder.Proofs.Model.NearestFirst
import PaintOrder.Proofs.Model.Standalone

/-!
# The order in which children are called

In the code of a submodel every sort has the call of one child in front, and everything else
stands behind it.  So an execution calls the children nearest first, and draws the faces of the
submodel after all of them, whatever the code of the children does in between.
-/

namespace PaintOrder

open Code

namespace Code

/-- The submodel whose own code makes an event happen, if points are not defined for one. -/
def Event.submodel? : Event → Option Nat
  | .define .. => none
  | .draw submodel .. => some submodel
  | .opened _ bucket => bucket.parent

/-- What the code of a submodel does itself, without what it calls. -/
def ownEvents (submodel : Nat) (events : List Event) : List Event :=
  events.filter fun event => event.submodel? = some submodel

theorem ownEvents_append (submodel : Nat) (first second : List Event) :
    ownEvents submodel (first ++ second) = ownEvents submodel first ++ ownEvents submodel second :=
  List.filter_append first second

namespace Assembly

/-- What code does, it does for the submodel that executes it or for one that it calls. -/
theorem submodel_of_mem_events {code : Assembly} {caller address submodel : Nat} {event : Event}
    (happens : event ∈ (code.program address).events caller address)
    (isFor : event.submodel? = some submodel) : submodel ∈ caller :: code.called := by
  induction code generalizing caller address with
  | stop => cases happens
  | points first positions rest ih =>
      rcases List.mem_cons.mp happens with rfl | later
      · cases isFor
      · exact ih later
  | draw polygon rest ih =>
      rcases List.mem_cons.mp happens with rfl | later
      · cases isFor
        exact List.mem_cons_self
      · exact ih later
  | sort plane front back frontIH backIH =>
      rw [sort_events, List.mem_append] at happens
      rw [called, List.mem_cons, List.mem_append]
      rcases happens with inFront | behind
      · exact (List.mem_cons.mp (frontIH inFront)).imp_right .inl
      · exact (List.mem_cons.mp (backIH behind)).imp_right .inr
  | call child offset callee ih =>
      rw [call_events, List.mem_cons] at happens
      rcases happens with rfl | inside
      · cases isFor
        exact List.mem_cons_self
      · exact List.mem_cons_of_mem _ (ih inside)

/-- A submodel that is not called does nothing in the code of another one. -/
theorem ownEvents_of_not_called {code : Assembly} {caller submodel : Nat}
    (apart : submodel ∉ caller :: code.called) (address : Nat) :
    ownEvents submodel ((code.program address).events caller address) = [] := by
  unfold ownEvents
  rw [List.filter_eq_nil_iff]
  intro event happens isFor
  exact apart (submodel_of_mem_events happens (by simpa using isFor))

/-- A call is one event of the caller, whatever is called. -/
theorem ownEvents_call {caller child : Nat} {offset : FixedVector} {callee : Assembly}
    (apart : caller ∉ child :: callee.called) (address : Nat) :
    ownEvents caller (((call child offset callee).program address).events caller address) =
      [.opened child { parent := some caller, offset := offset, entry := address + callJump }] := by
  have inside := ownEvents_of_not_called apart (address + callJump)
  unfold ownEvents at inside ⊢
  rw [call_events, List.filter_cons_of_pos (by simp [Event.submodel?]), inside]

/-- Events that draw some faces for a submodel, in the order of the faces. -/
def Draws (table : VertexTable) (submodel : Nat) (events : List Event) (faces : List Face) :
    Prop :=
  List.Forall₂ (fun event face => ∃ position,
    event = .draw submodel position (Emission.polygonOf table face)) events faces

/-- The code of a partition draws its faces and does nothing else. -/
theorem ofPartition_events (table : VertexTable) (partition : Partition) (submodel address : Nat) :
    Draws table submodel (((ofPartition table partition).program address).events submodel address)
      partition.faces := by
  revert address
  apply ofPartition_induction (motive := fun code faces => ∀ address,
    Draws table submodel ((code.program address).events submodel address) faces)
  case stop =>
    intro address
    exact .nil
  case draw =>
    intro face code faces ih address
    exact .cons ⟨address, rfl⟩ (ih _)
  case sort =>
    intro plane front back frontFaces backFaces frontIH backIH address
    rw [sort_events]
    exact List.rel_append (frontIH _) (backIH _)

theorem Draws.ownEvents_eq {table : VertexTable} {submodel : Nat} {events : List Event}
    {faces : List Face} (draws : Draws table submodel events faces) :
    ownEvents submodel events = events := by
  unfold ownEvents
  induction draws with
  | nil => rfl
  | cons isDraw _ ih =>
      obtain ⟨position, rfl⟩ := isDraw
      rw [List.filter_cons_of_pos (by simp [Event.submodel?]), ih]

end Assembly

namespace Program

/-- The instruction with which a program starts. -/
def head : Program → Instruction
  | stop => .stop
  | points first positions _ => .points first positions
  | draw polygon _ => .draw polygon
  | sort frontAt backAt _ _ _ => .sort frontAt backAt
  | call submodel offset target _ _ => .call submodel offset target

theorem LaidOut.head_eq {data : Array UInt8} {program : Program} {address : Nat}
    (laidOut : program.LaidOut data address) :
    Instruction.at data address = .ok program.head := by
  cases program with
  | stop => exact laidOut
  | _ => exact laidOut.1

/-- At an address there is no more than one program. -/
theorem eq_of_laidOut {data : Array UInt8} {program other : Program} {address : Nat}
    (laidOut : program.LaidOut data address) (otherLaidOut : other.LaidOut data address) :
    program = other := by
  induction program generalizing other address with
  | stop =>
      have sameHead := laidOut.head_eq.symm.trans otherLaidOut.head_eq
      cases other <;> cases sameHead
      rfl
  | points first positions rest ih =>
      have sameHead := laidOut.head_eq.symm.trans otherLaidOut.head_eq
      cases other <;> cases sameHead
      rw [ih laidOut.2 otherLaidOut.2]
  | draw polygon rest ih =>
      have sameHead := laidOut.head_eq.symm.trans otherLaidOut.head_eq
      cases other <;> cases sameHead
      rw [ih laidOut.2 otherLaidOut.2]
  | sort frontAt backAt front back rest frontIH backIH restIH =>
      have sameHead := laidOut.head_eq.symm.trans otherLaidOut.head_eq
      cases other <;> cases sameHead
      rw [frontIH laidOut.2.1 otherLaidOut.2.1, backIH laidOut.2.2.1 otherLaidOut.2.2.1,
        restIH laidOut.2.2.2 otherLaidOut.2.2.2]
  | call submodel offset target callee rest calleeIH restIH =>
      have sameHead := laidOut.head_eq.symm.trans otherLaidOut.head_eq
      cases other <;> cases sameHead
      rw [calleeIH laidOut.2.1 otherLaidOut.2.1, restIH laidOut.2.2 otherLaidOut.2.2]

/-- A walk that comes to its end where a program stands has gone through that program. -/
theorem went_of_walk {data : Array UInt8} {program : Program} {address : Nat}
    (laidOut : program.LaidOut data address) {levels submodel : Nat}
    {recovery result : Recovery} (marks : recovery.executed.size = data.size)
    (ended : (Execution.walk data levels submodel address).run recovery = .ok () result) :
    Went (program.addresses address) (program.events submodel address) recovery result := by
  obtain ⟨found, foundLaidOut, _, went⟩ :=
    Execution.exists_program_of_walk data levels submodel address recovery result marks ended
  rwa [eq_of_laidOut laidOut foundLaidOut]

end Program

end Code

namespace Model

variable {limit scratchSize : Nat} {select : Selector} {model compiled : Model}

/-- The calls of some children by their parent, each as it is entered in a compiled model. -/
def calls (model compiled : Model) (parent : Nat) (order : List Nat) : List Event :=
  order.map fun child => .opened child
    { parent := some parent, offset := (model.submodel child).offset,
      entry := (compiled.submodel child).entry }

/-- Behind its points, a submodel calls the children that are left and draws its faces. -/
theorem Nested.ownEvents_eq {owner base first finish address : Nat} {order : List Nat}
    {code : Assembly}
    (nested : Nested limit select model owner base order first code finish)
    (apart : owner ∉ code.called)
    (entries : ∀ child place, (child, place) ∈ code.entries address →
      (compiled.submodel child).entry = place) :
    ∃ draws, ownEvents owner ((code.program address).events owner address) =
        calls model compiled owner order ++ draws ∧
      Assembly.Draws (model.tableOf limit select owner base) owner draws
        (model.partitionOf limit select owner).faces := by
  induction nested generalizing address with
  | @own owner base first built writable =>
      have draws := Assembly.ofPartition_events (model.tableOf limit select owner base)
        (model.partitionOf limit select owner) owner address
      exact ⟨_, draws.ownEvents_eq, draws⟩
  | @nest owner base child first middle finish order code rest callee later calleeIH laterIH =>
      obtain ⟨notInFront, notInRest⟩ := not_or.mp (mt List.mem_append.mpr apart)
      obtain ⟨draws, laterOwn, drawn⟩ := laterIH notInRest fun other place listed =>
        entries other place (List.mem_append_right _ listed)
      have entry : (compiled.submodel child).entry =
          address + Assembly.frontJump + Assembly.callJump :=
        entries child _ (List.mem_append_left _ List.mem_cons_self)
      refine ⟨draws, ?_, drawn⟩
      rw [Assembly.sort_events, ownEvents_append, Assembly.ownEvents_call notInFront, laterOwn,
        ← entry]
      rfl

/-- The code of a submodel calls its children nearest first and then draws its faces. -/
theorem Compiled.ownEvents_eq {rest : Assembly} {finish : Nat}
    (result : Compiled limit select model compiled rest finish) {index : Nat}
    (inRange : index < model.size) :
    ∃ (program : Program) (base : Nat) (draws : List Event),
      Partition.build limit select (model.submodel index).faces =
        .ok (model.partitionOf limit select index) ∧
      program.LaidOut compiled.data (compiled.submodel index).entry ∧
      ownEvents index (program.events index (compiled.submodel index).entry) =
        calls model compiled index (model.nestingOrder index) ++ draws ∧
      Assembly.Draws (model.tableOf limit select index base) index draws
        (model.partitionOf limit select index).faces := by
  obtain ⟨base, code, piece⟩ := result.exists_piece inRange
  obtain ⟨last, nested⟩ := piece.nested
  obtain ⟨notCalled, _⟩ := List.nodup_cons.mp (nested.called_distinct result.tree inRange)
  obtain ⟨draws, own, drawn⟩ := nested.ownEvents_eq notCalled piece.entries
  exact ⟨_, base, draws, nested.built index List.mem_cons_self,
    Assembly.laidOut piece.fits piece.holds, own, drawn⟩

/-- Children are nested in a stable sort of their distances.  In that order every execution of a
compiled submodel calls them, and it draws the faces of the submodel after all of its calls. -/
theorem children_are_called_nearest_first (model : Model) :
    (∀ parent,
      (model.nestingOrder parent =
        (model.submodel parent).children.mergeSort
          fun child other => model.childKey parent child ≤ model.childKey parent other) ∧
      (model.nestingOrder parent).Perm (model.submodel parent).children ∧
      ((model.nestingOrder parent).Pairwise
        fun child other => model.childKey parent child ≤ model.childKey parent other) ∧
      ∀ distance, (model.nestingOrder parent).filter (model.childKey parent · = distance) =
        (model.submodel parent).children.filter (model.childKey parent · = distance)) ∧
    ∀ limit scratchSize select compiled,
      model.compileWith limit scratchSize select = .ok compiled →
      ∀ index < model.size, ∃ (program : Program) (partition : Partition) (base : Nat)
          (draws : List Event),
        Partition.build limit select (model.submodel index).faces = .ok partition ∧
        program.LaidOut compiled.data (compiled.submodel index).entry ∧
        (ownEvents index (program.events index (compiled.submodel index).entry) =
          calls model compiled index (model.nestingOrder index) ++ draws) ∧
        Assembly.Draws (.insertFaces { base := base } partition.faces) index draws
          partition.faces ∧
        ∀ levels recovery result, recovery.executed.size = compiled.data.size →
          (Execution.walk compiled.data levels index (compiled.submodel index).entry).run
            recovery = .ok () result →
          Went (program.addresses (compiled.submodel index).entry)
            (program.events index (compiled.submodel index).entry) recovery result := by
  constructor
  · intro parent
    refine ⟨model.nestingOrder_eq_mergeSort parent, model.nestingOrder_perm parent, ?_, ?_⟩
    · rw [nestingOrder_eq_mergeSort]
      exact pairwise_mergeSort_key _ _
    · intro distance
      rw [nestingOrder_eq_mergeSort]
      exact filter_mergeSort distance
  · intro limit scratchSize select compiled succeeds index inRange
    obtain ⟨rest, finish, result⟩ := compileWith_eq_ok succeeds
    obtain ⟨program, base, draws, built, laidOut, own, drawn⟩ := result.ownEvents_eq inRange
    refine ⟨program, model.partitionOf limit select index, base, draws, built, laidOut, own,
      drawn, ?_⟩
    intro levels recovery left marks ended
    exact Program.went_of_walk laidOut marks ended

section Example

/-- A floor with three parts, the first one farther away than the other two. -/
def scatteredParts : Model where
  submodels := #[
    { children := [1, 2, 3], faces := [floorTriangle] },
    { offset := ⟨⟨524288⟩, .zero, .zero⟩, parent := some 0 },
    { offset := ⟨⟨131072⟩, .zero, .zero⟩, parent := some 0, faces := [floorTriangle] },
    { offset := ⟨⟨131072⟩, .zero, .zero⟩, parent := some 0, faces := [floorTriangle] }]

/-- Of two parts at one place the one that is listed first is called first. -/
theorem scatteredParts_are_called : scatteredParts.nestingOrder 0 = [2, 3, 1] ∧
    ∃ compiled, scatteredParts.compile 3 {} = .ok compiled ∧
      ∃ (program : Program) (draws : List Event),
        program.LaidOut compiled.data (compiled.submodel 0).entry ∧
        ownEvents 0 (program.events 0 (compiled.submodel 0).entry) =
          calls scatteredParts compiled 0 [2, 3, 1] ++ draws ∧ draws.length = 1 := by
  have order : scatteredParts.nestingOrder 0 = [2, 3, 1] := by decide +kernel
  have valid : scatteredParts.validateHierarchy = .ok () := by decide +kernel
  obtain ⟨compiled, succeeds⟩ : ∃ compiled, scatteredParts.compile 3 {} = .ok compiled :=
    exists_compileWith (isTree_of_validateHierarchy valid) (by decide +kernel)
      (by decide +kernel)
  obtain ⟨program, partition, base, draws, built, laidOut, own, drawn, _⟩ :=
    (children_are_called_nearest_first scatteredParts).2 3 32768 _ compiled succeeds 0
      (by decide)
  have single : (Partition.build 3 (Splitter.leastCost Splitter.defaultSpanWeight)
      [floorTriangle]).map (fun partition => partition.faces.length) = .ok 1 := by
    decide +kernel
  have count : partition.faces.length = 1 := by
    rw [show Partition.build 3 _ [floorTriangle] = .ok partition from built] at single
    exact Except.ok.inj single
  rw [order] at own
  exact ⟨order, compiled, succeeds, program, draws, laidOut, own, drawn.length_eq.trans count⟩

end Example

end Model

end PaintOrder
