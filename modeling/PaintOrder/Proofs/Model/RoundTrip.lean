import PaintOrder.Proofs.Code.Walk
import PaintOrder.Proofs.Model.Linking
import PaintOrder.Proofs.Model.Recovery
import PaintOrder.Proofs.Model.Room

/-!
# Recovering a compiled model

Compiling a model and recovering one from the code gives back every submodel, with the faces
of its partition and with its link.  Only two things can be different.  The offset of the
root is lost, because code has offsets only in calls; and if sorts and calls nest too deeply,
the code is refused.
-/

namespace PaintOrder.Model

open Code

variable {limit : Nat} {select : Selector} {model compiled : Model} {rest : Assembly}
  {finish : Nat}

/-- Every submodel that is written has a partition. -/
theorem Nested.built {owner base first finish : Nat} {order : List Nat} {code : Assembly}
    (nested : Nested limit select model owner base order first code finish) :
    ∀ index ∈ owner :: code.called,
      Partition.build limit select (model.submodel index).faces =
        .ok (model.partitionOf limit select index) := by
  induction nested with
  | @own owner base first built writable =>
      simpa using built
  | @nest owner base child first middle finish order code rest callee later calleeIH laterIH =>
      intro index member
      simp only [Assembly.called, submodelCode, List.cons_append, List.mem_cons,
        List.mem_append] at member
      rcases member with rfl | rfl | inCode | inRest
      · exact laterIH index List.mem_cons_self
      · exact calleeIH index List.mem_cons_self
      · exact calleeIH index (List.mem_cons_of_mem _ inCode)
      · exact laterIH index (List.mem_cons_of_mem _ inRest)

/-- A model that was recovered from the code compiled from another one. -/
structure Restores (limit : Nat) (select : Selector) (model compiled recovered : Model) :
    Prop where
  size_eq : recovered.size = model.size
  /-- The faces are those of the partition, in the order of a walk. -/
  faces : ∀ index, index < model.size → ∃ partition,
    Partition.build limit select (model.submodel index).faces = .ok partition ∧
      (recovered.submodel index).faces = partition.faces
  root_offset : (recovered.submodel 0).offset = .zero
  offset : ∀ index, 0 < index → index < model.size →
    (recovered.submodel index).offset = (model.submodel index).offset
  parent : ∀ index, index < model.size →
    (recovered.submodel index).parent = (model.submodel index).parent
  entry : ∀ index, index < model.size →
    (recovered.submodel index).entry = (compiled.submodel index).entry
  /-- The children come in ascending order. -/
  children : ∀ index, index < model.size → (recovered.submodel index).children =
    (List.range model.size).filter fun child => (model.submodel child).parent = some index

/-- An execution begins with the root as if it had been called. -/
theorem root_begins (limit : Nat) (select : Selector) (model : Model) (data : Array UInt8) :
    ∃ begun, (Event.define 0 (model.tableOf limit select 0 0).positions.toList).perform.run
        { Recovery.start data with buckets := #[some { entry := 0 }] } = .ok () begun ∧
      Begins limit select model 0 0 { entry := 0 } (.start data) begun := by
  obtain ⟨begun, defined, sameBuckets, points⟩ :=
    define_run { Recovery.start data with buckets := #[some { entry := 0 }] } 0
      (model.tableOf limit select 0 0).positions.toList
  refine ⟨begun, defined, ?_, ?_, ?_, ?_⟩
  · intro number impossible
    omega
  · apply knows_of_define (tableOf_faithful 0 0)
    rwa [tableOf_base]
  · intro index
    rw [Recovery.bucket?, sameBuckets]
    cases index <;> rfl
  · rw [sameBuckets]
    rfl

theorem toList_buckets_eq {recovery : Recovery} {count : Nat} {bucketOf : Nat → Bucket}
    (known : ∀ index, index < count → recovery.bucket? index = some (bucketOf index))
    (sizeLe : recovery.buckets.size ≤ count) :
    recovery.buckets.toList = ((List.range count).map bucketOf).map some := by
  apply List.ext_getElem?
  intro index
  by_cases inRange : index < count
  · have here := known index inRange
    rw [Recovery.bucket?] at here
    have stored : recovery.buckets[index]? = some (some _) := Option.join_eq_some_iff.mp here
    simp [stored, inRange]
  · simp [inRange]
    omega

namespace Compiled

/-- The bucket that a submodel ends up with. -/
def bucket (limit : Nat) (select : Selector) (model compiled : Model) (index : Nat) :
    Bucket where
  parent := (model.submodel index).parent
  offset := if index = 0 then .zero else (model.submodel index).offset
  entry := (compiled.submodel index).entry
  faces := (model.partitionOf limit select index).faces.toArray

/-- Where the code of each submodel starts is recorded. -/
theorem entry_eq (result : Compiled limit select model compiled rest finish) :
    (compiled.submodel 0).entry = 0 ∧
      ∀ index entry, (index, entry) ∈ (model.submodelCode limit select 0 0 rest).entries 0 →
        (compiled.submodel index).entry = entry := by
  obtain ⟨distinct, inside⟩ := result.nested.called_root result.tree
  have listed : ((0, 0) :: (model.submodelCode limit select 0 0 rest).entries 0).map Prod.fst =
      0 :: rest.called := by
    rw [List.map_cons, Assembly.entries_fst]
    rfl
  have recorded : ∀ index entry,
      (index, entry) ∈ (0, 0) :: (model.submodelCode limit select 0 0 rest).entries 0 →
        (compiled.submodel index).entry = entry := by
    intro index entry member
    apply result.entries
    apply recordEntries_of_mem (by rwa [listed]) member
    rw [Array.size_replicate, ← inside, ← listed]
    exact List.mem_map_of_mem member
  exact ⟨recorded 0 0 List.mem_cons_self,
    fun index entry member => recorded index entry (List.mem_cons_of_mem _ member)⟩

theorem recovers (result : Compiled limit select model compiled rest finish) :
    ∃ recovery, (Event.performAll (((model.submodelCode limit select 0 0 rest).program
        0).events 0 0)).run
          { Recovery.start compiled.data with buckets := #[some { entry := 0 }] } =
            .ok () recovery ∧
      recovery.buckets.toList =
        ((List.range model.size).map (bucket limit select model compiled)).map some := by
  have tree := result.tree
  obtain ⟨distinct, inside⟩ := result.nested.called_root tree
  obtain ⟨rootEntry, calledEntry⟩ := result.entry_eq
  have rootAbsent : 0 ∉ rest.called := (List.nodup_cons.mp distinct).1
  obtain ⟨begun, defined, beginsRoot⟩ := root_begins limit select model compiled.data
  have ready : Ready _ 0 { entry := 0 } rest begun :=
    beginsRoot.ready distinct fun _ _ => rfl
  obtain ⟨recovery, performed, recovers⟩ := result.nested.recovers tree tree.nonempty
    (fun child => (model.nestingOrder_perm 0).mem_iff.mp) ready (Nat.le_refl _)
    (0 + pointsSize (model.tableOf limit select 0 0).positions.toList.length)
  refine ⟨recovery, run_bind_eq_ok.mpr ⟨(), begun, defined, performed⟩, ?_⟩
  apply toList_buckets_eq
  · intro index inRange
    rcases List.mem_cons.mp ((inside index).mpr inRange) with rfl | called
    · rw [recovers.own, bucket, tree.rootless, rootEntry]
      simp [Bucket.add]
    · obtain ⟨entry, member⟩ := Assembly.exists_entry called
        (0 + pointsSize (model.tableOf limit select 0 0).positions.toList.length)
      have notRoot : index ≠ 0 := by
        rintro rfl
        exact rootAbsent called
      rw [recovers.called index entry member, bucket, calledBucket, if_neg notRoot,
        calledEntry index entry member]
  · apply recovers.size_le
    · rw [beginsRoot.size_eq]
      exact tree.nonempty
    · intro index called
      exact (inside index).mp (List.mem_cons_of_mem _ called)

/-- The buckets with their links are the model that was compiled. -/
theorem restores (result : Compiled limit select model compiled rest finish) :
    Restores limit select model compiled
      (linkedBuckets compiled.data
        ((List.range model.size).map (bucket limit select model compiled))
          model.size).updateBounds := by
  obtain ⟨_, inside⟩ := result.nested.called_root result.tree
  constructor
  case size_eq => simp [size, updateBounds, linkedBuckets]
  case faces =>
    intro index inRange
    rw [linkedBuckets_updateBounds inRange]
    exact ⟨_, result.nested.built index ((inside index).mpr inRange), by simp [bucket]⟩
  case root_offset =>
    rw [linkedBuckets_updateBounds result.tree.nonempty]
    rfl
  case offset =>
    intro index positive inRange
    rw [linkedBuckets_updateBounds inRange, bucket, if_neg (Nat.ne_of_gt positive)]
  case parent =>
    intro index inRange
    rw [linkedBuckets_updateBounds inRange, bucket]
  case entry =>
    intro index inRange
    rw [linkedBuckets_updateBounds inRange, bucket]
  case children =>
    intro index inRange
    rw [linkedBuckets_updateBounds inRange]
    rfl

/-- The code of the root stands at the start of the bytes. -/
theorem holds (result : Compiled limit select model compiled rest finish) :
    Holds compiled.data 0 (model.submodelCode limit select 0 0 rest).code := by
  have whole : compiled.data.toList =
      [] ++ (model.submodelCode limit select 0 0 rest).code ++ [] := by
    simpa using result.data_eq
  exact holds_of_toList_eq whole

/-- Recovering a model from the code ends well unless the code nests too deeply. -/
theorem decompile_eq (result : Compiled limit select model compiled rest finish) :
    (rest.depth ≤ nestingLimit → ∃ recovered, decompile compiled.data = .ok recovered ∧
      Restores limit select model compiled recovered) ∧
    (nestingLimit < rest.depth →
      decompile compiled.data = .error (.format (.tooDeep nestingLimit))) := by
  have tree := result.tree
  obtain ⟨recovery, performed, complete⟩ := result.recovers
  have ends := Assembly.fromEntry_ends result.fits result.holds performed
  constructor
  · intro fits
    rw [Ends, if_pos (by exact fits)] at ends
    let buckets := (List.range model.size).map (bucket limit select model compiled)
    have size : buckets.length = model.size := by simp [buckets]
    have known : ∀ index (inRange : index < buckets.length),
        buckets[index] = bucket limit select model compiled index := by
      intro index inRange
      simp [buckets]
    have linked : ofRecovery compiled.data _ = .ok _ := ofRecovery_eq_ok complete (by
      intro index parent inRange called
      rw [known index inRange] at called
      rw [size] at inRange ⊢
      refine ⟨(tree.mem_children called).1, ?_⟩
      rintro rfl
      exact tree.not_descends_itself inRange (.child (.itself parent) called))
    rw [size] at linked
    refine ⟨_, ?_, result.restores⟩
    rw [decompile, decompileAt, ends]
    exact linked
  · intro deep
    rw [Ends, if_neg (by exact Nat.not_le_of_lt deep)] at ends
    obtain ⟨left, failed⟩ := ends
    rw [decompile, decompileAt, failed]

end Compiled

/-- Whatever is recovered from compiled code restores the model. -/
theorem restores_of_decompile {scratchSize : Nat} {recovered : Model}
    (succeeds : model.compileWith limit scratchSize select = .ok compiled)
    (decompiled : decompile compiled.data = .ok recovered) :
    Restores limit select model compiled recovered := by
  obtain ⟨rest, finish, result⟩ := compileWith_eq_ok succeeds
  obtain ⟨accepted, refused⟩ := result.decompile_eq
  by_cases shallow : rest.depth ≤ nestingLimit
  · obtain ⟨restored, isRestored, restores⟩ := accepted shallow
    rw [isRestored] at decompiled
    obtain rfl := Except.ok.inj decompiled
    exact restores
  · rw [refused (Nat.lt_of_not_le shallow)] at decompiled
    cases decompiled

/-- What is recovered from compiled code is the model that was compiled, except that the
offset of the root is lost.  Only code that nests too deeply is refused, and the code of a
single submodel never is. -/
theorem decompile_restores_compiled {scratchSize : Nat}
    (succeeds : model.compileWith limit scratchSize select = .ok compiled) :
    (decompile compiled.data = .error (.format (.tooDeep nestingLimit)) ∧ model.size ≠ 1) ∨
      ∃ recovered, decompile compiled.data = .ok recovered ∧
        Restores limit select model compiled recovered := by
  obtain ⟨rest, finish, result⟩ := compileWith_eq_ok succeeds
  obtain ⟨accepted, refused⟩ := result.decompile_eq
  by_cases shallow : rest.depth ≤ nestingLimit
  · exact .inr (accepted shallow)
  · refine .inl ⟨refused (Nat.lt_of_not_le shallow), ?_⟩
    intro alone
    exact shallow (result.depth_le_of_alone alone)

/-- Rooms of a floor and a wall are recovered with all that the floor and the wall were cut
into. -/
theorem decompile_restores_crossedRooms :
    ∃ compiled recovered, crossedRooms.compile 3 {} = .ok compiled ∧
      decompile compiled.data = .ok recovered ∧
      Restores 3 (Splitter.leastCost 6) crossedRooms compiled recovered ∧
      ∀ index < crossedRooms.size, (recovered.submodel index).faces.length = 4 := by
  obtain ⟨compiled, succeeds⟩ := crossedRooms_compiles
  obtain ⟨rest, finish, result⟩ := compileWith_eq_ok succeeds
  obtain ⟨_, accepted, _⟩ := result.decompile_eq.1 (crossedRooms_shallow result)
  rcases decompile_restores_compiled succeeds with
    ⟨refused, _⟩ | ⟨recovered, decompiled, restores⟩
  · rw [accepted] at refused
    cases refused
  refine ⟨compiled, recovered, succeeds, decompiled, restores, ?_⟩
  intro index inRange
  obtain ⟨partition, built, _, _, fourFaces, _⟩ := crossedRooms_partition
  obtain ⟨same, sameBuilt, faces⟩ := restores.faces index inRange
  obtain rfl := Except.ok.inj ((built index inRange).symm.trans sameBuilt)
  rw [faces, fourFaces]

section Example

/-- A root that stands off its place, with two children and a grandchild. -/
def shiftedRoot : Model where
  submodels := #[
    { offset := ⟨.one, .zero, .zero⟩, children := [1, 3] },
    { offset := ⟨.zero, ⟨131072⟩, .zero⟩, parent := some 0, children := [2] },
    { offset := ⟨.zero, .zero, .one⟩, parent := some 1 },
    { offset := ⟨.zero, .one, .zero⟩, parent := some 0 }]

theorem shiftedRoot_compiles : ∃ compiled, shiftedRoot.compile 1 {} = .ok compiled := by
  cases compiles : shiftedRoot.compile 1 {} with
  | ok compiled => exact ⟨compiled, rfl⟩
  | error cause =>
      have succeeds : (shiftedRoot.compile 1 {}).isOk = true := by decide +kernel
      rw [compiles] at succeeds
      cases succeeds

/-- The offset of the root is in no call. -/
theorem shiftedRoot_offset_is_lost :
    ∃ compiled recovered, shiftedRoot.compile 1 {} = .ok compiled ∧
      decompile compiled.data = .ok recovered ∧
      (recovered.submodel 0).offset ≠ (shiftedRoot.submodel 0).offset := by
  obtain ⟨compiled, succeeds⟩ := shiftedRoot_compiles
  obtain ⟨rest, finish, result⟩ := compileWith_eq_ok succeeds
  have shallow : rest.depth ≤ nestingLimit := by
    rw [result.depth_eq]
    decide +kernel
  obtain ⟨recovered, accepted, restores⟩ := result.decompile_eq.1 shallow
  refine ⟨compiled, recovered, succeeds, accepted, ?_⟩
  rw [restores.root_offset]
  decide

end Example

end PaintOrder.Model
