import PaintOrder.Proofs.Code.Depth
import PaintOrder.Proofs.Model.Layout
import PaintOrder.Proofs.Model.Nesting
import PaintOrder.Proofs.Model.Validation
import PaintOrder.Proofs.Partition.Construction

/-!
# What compiling writes

Writing a submodel that succeeds appends its code, records where it and everything below it
starts, and moves on the free vertex number.  In a valid hierarchy every number that is
written fits into its field.
-/

namespace PaintOrder.Model

open Code

variable {limit : Nat} {select : Selector} {model : Model} {emitter result : Emitter}

theorem partitionOf_eq {index : Nat} {partition : Partition}
    (built : Partition.build limit select (model.submodel index).faces = .ok partition) :
    model.partitionOf limit select index = partition := by
  rw [partitionOf, built]
  rfl

theorem tableOf_base (index base : Nat) :
    (model.tableOf limit select index base).base = base :=
  (VertexTable.insertFaces_numbers base _).base_eq

theorem tableOf_finish (index base : Nat) :
    (model.tableOf limit select index base).finish =
      base + (model.tableOf limit select index base).positions.toList.length := by
  rw [VertexTable.finish, tableOf_base, VertexTable.size, Array.length_toList]

theorem le_tableOf_finish (index base : Nat) :
    base ≤ (model.tableOf limit select index base).finish := by
  rw [tableOf_finish]
  exact Nat.le_add_right _ _

theorem tableOf_faithful (index base : Nat) :
    (model.tableOf limit select index base).Faithful :=
  (VertexTable.insertFaces_numbers base _).faithful

/-- With code appended, what it calls recorded and the next vertex number moved on. -/
def written (emitter : Emitter) (code : Assembly) (nextVertex : Nat) : Emitter :=
  (emitter.record nextVertex
    (recordEntries emitter.entries (code.entries emitter.code.size))).append code.code

theorem size_behind_sort (emitter : Emitter) (plane : Plane) (front : Assembly)
    (nextVertex : Nat) :
    (written (emitter.append (sortBytes plane 0 0 ++ stopBytes)) front
      nextVertex).code.size =
        emitter.code.size + (Assembly.frontJump + front.code.length) := by
  simp [written, Assembly.frontJump]
  omega

/-- Two branches are written one after the other behind a sort without jumps. -/
theorem written_branches (emitter : Emitter) (plane : Plane) (front back : Assembly)
    (middle finish : Nat) :
    written (written (emitter.append (sortBytes plane 0 0 ++ stopBytes)) front middle) back
        finish =
      (emitter.record finish (recordEntries emitter.entries
        ((Assembly.sort plane front back).entries emitter.code.size))).append
          (sortBytes plane 0 0 ++ (stopBytes ++ (front.code ++ back.code))) := by
  have start : (emitter.append (sortBytes plane 0 0 ++ stopBytes)).code.size =
      emitter.code.size + Assembly.frontJump := by
    simp [Assembly.frontJump]
  rw [written, size_behind_sort, written, start, Assembly.entries, recordEntries_append]
  simp only [Emitter.append_entries, Emitter.append_record, Emitter.record_record,
    Emitter.append_append, List.append_assoc]
  rfl

/-- What a submodel leaves behind that starts at the end of the code. -/
def Emitted (limit : Nat) (select : Selector) (model : Model) (depth index : Nat)
    (emitter result : Emitter) : Prop :=
  ∃ rest finish, rest.depth = depth ∧
    Nested limit select model index emitter.nextVertex (model.nestingOrder index)
      (model.tableOf limit select index emitter.nextVertex).finish rest finish ∧
    (model.submodelCode limit select index emitter.nextVertex rest).Fits ∧
    result = (emitter.record finish
      (recordEntries emitter.entries ((index, emitter.code.size) ::
        (model.submodelCode limit select index emitter.nextVertex rest).entries
          emitter.code.size))).append
      (model.submodelCode limit select index emitter.nextVertex rest).code

/-- A call and what it calls. -/
def writeCalled (model : Model) (writeChild : Nat → Emission Unit) (child : Nat) :
    Emission Unit := do
  let call ← Emission.writeCall child (model.submodel child).offset
  Emission.writeStop
  Emission.patch call callJumpField (← Emission.position)
  writeChild child

theorem writeNested_cons (writeChild : Nat → Emission Unit) (owner child : Nat)
    (partition : Partition) (table : VertexTable) (rest : List Nat) :
    writeNested model writeChild owner partition table (child :: rest) =
      Emission.writeBranches (model.separatingPlane owner child)
        (model.writeCalled writeChild child)
        (writeNested model writeChild owner partition table rest) := by
  simp only [writeNested, Emission.writeBranches, writeCalled, bind_assoc]

theorem writeCalled_eq_ok {writeChild : Nat → Emission Unit} {child : Nat}
    (ran : (model.writeCalled writeChild child).run emitter = .ok () result) :
    child ≤ maxWord ∧
      (writeChild child).run (emitter.append
        (callBytes child (model.submodel child).offset (numberWord Assembly.callJump) ++
          stopBytes)) = .ok () result := by
  simp only [writeCalled, run_bind_eq_ok, Emission.writeCall_eq_ok,
    Emission.position_eq_ok] at ran
  obtain ⟨_, _, ⟨fits, rfl, rfl⟩, _, _, stopped, _, _, ⟨rfl, rfl⟩, _, _, patched, ran⟩ := ran
  obtain rfl := Emission.write_eq_ok.mp stopped
  refine ⟨fits, ?_⟩
  have place : ((emitter.append (callBytes child (model.submodel child).offset 0)).append
      stopBytes).code.size = emitter.code.size + Assembly.callJump := by
    simp [Assembly.callJump, Nat.add_assoc]
  have written : (wordBytes Opcode.stop.word) = stopBytes := rfl
  rw [written, place, Emission.patch_eq_ok (Nat.le_add_right _ _),
    Nat.add_sub_cancel_left] at patched
  obtain ⟨_, rfl⟩ := patched
  rw [Emitter.append_append, Emission.overwrite_call] at ran
  exact ran

theorem writePartition_eq_ok {partition : Partition} {table : VertexTable}
    {writeChild : Nat → Emission Unit} {owner : Nat}
    (ran : (writeNested model writeChild owner partition table []).run emitter =
      .ok () result) :
    (Assembly.ofPartition table partition).Fits ∧
      (∀ face ∈ partition.faces, Emission.Writable table face) ∧
      result = emitter.append (Assembly.ofPartition table partition).code := by
  rw [writeNested] at ran
  rw [Assembly.ofPartition, Partition.faces]
  cases rooted : partition.root? with
  | none =>
      rw [rooted] at ran
      obtain rfl := Emission.write_eq_ok.mp ran
      exact ⟨trivial, by simp, rfl⟩
  | some tree =>
      rw [rooted] at ran
      exact Emission.writeTree_eq_ok ran

section Nested

variable {writeChild : Nat → Emission Unit} {childDepth : Nat → Nat}

/-- A call is written in front of the code of what it calls. -/
theorem writeCalled_emits {child : Nat}
    (childWrites : ∀ emitter result, (writeChild child).run emitter = .ok () result →
      Emitted limit select model (childDepth child) child emitter result)
    (ran : (model.writeCalled writeChild child).run emitter = .ok () result) :
    ∃ callee middle, callee.depth = childDepth child ∧
      Nested limit select model child emitter.nextVertex (model.nestingOrder child)
        (model.tableOf limit select child emitter.nextVertex).finish callee middle ∧
      child ≤ maxWord ∧
      (model.submodelCode limit select child emitter.nextVertex callee).Fits ∧
      result = written emitter (.call child (model.submodel child).offset
        (model.submodelCode limit select child emitter.nextVertex callee)) middle := by
  obtain ⟨childFits, childRan⟩ := writeCalled_eq_ok ran
  obtain ⟨callee, middle, depth, nested, fits, done⟩ := childWrites _ _ childRan
  have entry : (emitter.append (callBytes child (model.submodel child).offset
      (numberWord Assembly.callJump) ++ stopBytes)).code.size =
        emitter.code.size + Assembly.callJump := by
    simp [Assembly.callJump]
  rw [entry] at done
  simp only [Emitter.append_nextVertex, Emitter.append_entries] at nested fits done
  refine ⟨callee, middle, depth, nested, childFits, fits, ?_⟩
  simp only [done, written, Emitter.append_record, Emitter.append_append, Assembly.entries,
    Assembly.code, List.append_assoc]

theorem writeNested_eq_ok (tree : model.IsTree)
    (childWrites : ∀ child, child < model.size → ∀ emitter result,
      (writeChild child).run emitter = .ok () result →
        Emitted limit select model (childDepth child) child emitter result)
    {owner base : Nat} (inRange : owner < model.size)
    (built : Partition.build limit select (model.submodel owner).faces =
      .ok (model.partitionOf limit select owner))
    {order : List Nat} (children : ∀ child ∈ order, child ∈ (model.submodel owner).children)
    (ran : (writeNested model writeChild owner (model.partitionOf limit select owner)
      (model.tableOf limit select owner base) order).run emitter = .ok () result) :
    ∃ code finish,
      code.depth =
        nestedDepth childDepth ((model.partitionOf limit select owner).depth - 1) order ∧
      Nested limit select model owner base order emitter.nextVertex code finish ∧ code.Fits ∧
      result = written emitter code finish := by
  induction order generalizing emitter result with
  | nil =>
      obtain ⟨fits, writable, rfl⟩ := writePartition_eq_ok ran
      refine ⟨_, emitter.nextVertex, Assembly.ofPartition_depth _ _, .own built writable,
        fits, ?_⟩
      rw [written, Assembly.ofPartition_entries]
      rfl
  | cons child rest ih =>
      rw [writeNested_cons] at ran
      obtain ⟨afterFront, afterBack, last, frontRan, backRan, backPatched, frontPatched⟩ :=
        Emission.writeBranches_eq_ok ran
      obtain ⟨childInRange, linked⟩ :=
        tree.acknowledged owner child inRange (children child (by simp))
      have positive : 0 < child := by
        rcases Nat.eq_zero_or_pos child with rfl | positive
        · rw [tree.rootless] at linked
          cases linked
        · exact positive
      obtain ⟨callee, middle, calleeDepth, calleeNested, childFits, calleeFits, rfl⟩ :=
        writeCalled_emits (childWrites child childInRange) frontRan
      obtain ⟨later, finish, laterDepth, laterNested, laterFits, rfl⟩ :=
        ih (fun other member => children other (by simp [member])) backRan
      rw [Emitter.append_nextVertex] at calleeNested calleeFits
      rw [Emitter.append_nextVertex, written_branches] at backPatched
      obtain ⟨jumpFits, rfl⟩ :=
        Emission.patch_sort_eq_ok backPatched frontPatched rfl (size_behind_sort _ _ _ _)
      refine ⟨_, finish, ?_, .nest calleeNested laterNested,
        ⟨jumpFits, ⟨positive, childFits, calleeFits⟩, laterFits⟩, rfl⟩
      rw [nestedDepth, ← calleeDepth, ← laterDepth]
      rfl

end Nested

/-- A submodel is written where it can start, if its partition is built and passes its check,
and if its points and what follows them are written. -/
theorem writeSubmodel_succ_eq_ok {levels index : Nat} :
    (writeSubmodel limit select model (levels + 1) index).run emitter = .ok () result ↔
      emitter.code.size ≤ maxWord ∧
        ∃ partition, Partition.build limit select (model.submodel index).faces = .ok partition ∧
          partition.validate = .ok () ∧
          let table := VertexTable.insertFaces { base := emitter.nextVertex } partition.faces
          ∃ written, (Emission.writePoints table).run (emitter.record table.finish
              (emitter.entries.setIfInBounds index emitter.code.size)) = .ok () written ∧
            (writeNested model (writeSubmodel limit select model levels) index partition table
              (model.nestingOrder index)).run written = .ok () result := by
  rw [writeSubmodel]
  simp only [run_bind_eq_ok, Emission.position_eq_ok]
  constructor
  · rintro ⟨_, emitter, ⟨rfl, rfl⟩, ran⟩
    split_ifs at ran with large
    · obtain ⟨_, _, thrown, _⟩ := run_bind_eq_ok.mp ran
      exact absurd thrown run_throw_ne_ok
    · simp only [run_bind_eq_ok, run_modify_eq_ok, Emission.lift_eq_ok,
        Emission.lift_structural_eq_ok, Emission.get_eq_ok] at ran
      obtain ⟨_, _, rfl, partition, _, ⟨built, rfl⟩, _, _, ⟨valid, rfl⟩, _, _, ⟨rfl, rfl⟩, _, _,
        rfl, _, written, pointsRan, nestedRan⟩ := ran
      exact ⟨Nat.le_of_not_lt large, partition, built, valid, written, pointsRan, nestedRan⟩
  · rintro ⟨inside, partition, built, valid, written, pointsRan, nestedRan⟩
    have small : ¬32767 < emitter.code.size := Nat.not_lt_of_le inside
    refine ⟨_, _, ⟨rfl, rfl⟩, ?_⟩
    rw [if_neg small]
    simp only [run_bind_eq_ok, run_modify_eq_ok, Emission.lift_eq_ok,
      Emission.lift_structural_eq_ok, Emission.get_eq_ok]
    exact ⟨(), _, rfl, partition, _, ⟨built, rfl⟩, (), _, ⟨valid, rfl⟩, _, _, ⟨rfl, rfl⟩, (), _,
      rfl, (), written, pointsRan, nestedRan⟩

/-- Whatever the number of levels, a submodel that is written is written as its code. -/
theorem writeSubmodel_eq_ok (tree : model.IsTree) {levels index : Nat}
    (inRange : index < model.size)
    (ran : (writeSubmodel limit select model levels index).run emitter = .ok () result) :
    Emitted limit select model (model.nestingDepth limit select levels index) index emitter
      result := by
  induction levels generalizing index emitter result with
  | zero => exact absurd ran run_throw_ne_ok
  | succ levels ih =>
      obtain ⟨_, partition, built, _, _, pointsRan, nestedRan⟩ :=
        writeSubmodel_succ_eq_ok.mp ran
      obtain rfl := partitionOf_eq built
      let table := model.tableOf limit select index emitter.nextVertex
      have pointsWritten : (Emission.writePoints table).run _ = .ok () _ := pointsRan
      obtain ⟨baseFits, countFits, rfl⟩ := Emission.writePoints_eq_ok pointsWritten
      obtain ⟨code, finish, depth, nested, fits, rfl⟩ := writeNested_eq_ok tree
        (fun child childInRange _ _ ran => ih childInRange ran) inRange built
        (fun child member => (model.nestingOrder_perm index).mem_iff.mp member) nestedRan
      have sameBase : table.base = emitter.nextVertex := tableOf_base index _
      rw [sameBase] at baseFits
      refine ⟨code, finish, depth, nested, ⟨baseFits, countFits, fits⟩, ?_⟩
      rw [sameBase, written, Emitter.append_record, Emitter.append_append,
        Emitter.append_size, length_pointsBytes]
      rfl

/-- What compiling a model leaves: the code of the root and of everything below it. -/
structure Compiled (limit : Nat) (select : Selector) (model compiled : Model)
    (rest : Assembly) (finish : Nat) : Prop where
  tree : model.IsTree
  depth_eq : rest.depth = model.nestingDepth limit select model.size 0
  nested : Nested limit select model 0 0 (model.nestingOrder 0)
    (model.tableOf limit select 0 0).finish rest finish
  fits : (model.submodelCode limit select 0 0 rest).Fits
  data_eq : compiled.data.toList = (model.submodelCode limit select 0 0 rest).code
  size_le : compiled.data.size ≤ maxWord
  entries : ∀ index entry,
    (recordEntries (.replicate model.size 0)
      ((0, 0) :: (model.submodelCode limit select 0 0 rest).entries 0))[index]? =
        some entry → (compiled.submodel index).entry = entry

/-- A model is compiled if its hierarchy is valid and the root is written as no more bytes than
there is room for. -/
theorem compileWith_eq_ok_iff {scratchSize : Nat} {compiled : Model} :
    model.compileWith limit scratchSize select = .ok compiled ↔
      model.validateHierarchy = .ok () ∧
        ∃ emitter, (writeSubmodel limit select model model.size 0).run
            { entries := Array.replicate model.size 0 } = .ok () emitter ∧
          emitter.code.size ≤ min scratchSize maxWord ∧
          compiled = updateBounds
            { submodels := model.submodels.zipWith
                (fun submodel entry => { submodel with entry := entry }) emitter.entries
              data := emitter.code } := by
  have finished : ∀ {emitter : Emitter} {data : Array UInt8},
      emitter.finish scratchSize = .ok data ↔
        emitter.code.size ≤ min scratchSize maxWord ∧ emitter.code = data := by
    intro emitter data
    rw [Emitter.finish, maxWord, Nat.le_min]
    split_ifs <;> simp <;> omega
  rw [compileWith, bind_eq_ok, liftM_structural]
  cases ran : (writeSubmodel limit select model model.size 0).run
      { entries := Array.replicate model.size 0 } with
  | error cause left => simp [ran, throw_ne_ok]
  | ok nothing emitter =>
      simp only [ran, mapError_eq_ok, bind_eq_ok, liftM_capacity, finished, pure_eq_ok,
        EStateM.Result.ok.injEq, true_and]
      constructor
      · rintro ⟨⟨⟩, valid, data, ⟨room, rfl⟩, rfl⟩
        exact ⟨valid, emitter, rfl, room, rfl⟩
      · rintro ⟨valid, emitter, rfl, room, rfl⟩
        exact ⟨(), valid, _, ⟨room, rfl⟩, rfl⟩

theorem compileWith_eq_ok {scratchSize : Nat} {compiled : Model}
    (succeeds : model.compileWith limit scratchSize select = .ok compiled) :
    ∃ rest finish, Compiled limit select model compiled rest finish := by
  obtain ⟨valid, emitter, ran, room, rfl⟩ := compileWith_eq_ok_iff.mp succeeds
  have tree := isTree_of_validateHierarchy valid
  obtain ⟨rest, finish, depth, nested, fits, written⟩ :=
    writeSubmodel_eq_ok tree tree.nonempty ran
  have code : emitter.code.toList = (model.submodelCode limit select 0 0 rest).code := by
    rw [written, Emitter.append_toList]
    rfl
  have recorded : emitter.entries = recordEntries (.replicate model.size 0)
      ((0, 0) :: (model.submodelCode limit select 0 0 rest).entries 0) := by
    rw [written]
    rfl
  refine ⟨rest, finish, tree, depth, nested, fits, code, (Nat.le_min.mp room).2, ?_⟩
  intro index entry found
  rw [← recorded] at found
  have inRange : index < model.submodels.size := by
    obtain ⟨inEntries, _⟩ := Array.getElem?_eq_some_iff.mp found
    rwa [recorded, recordEntries_size, Array.size_replicate] at inEntries
  simp [submodel, updateBounds, Array.getD_eq_getD_getElem?, Array.getElem?_zipWith, found,
    Array.getElem?_eq_getElem inRange]

end PaintOrder.Model
