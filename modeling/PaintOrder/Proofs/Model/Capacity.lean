import PaintOrder.Proofs.Model.RoundTrip

/-!
# How much room a model needs

A model is compiled exactly if its hierarchy and its partitions are sound and its code is no
longer than a word can tell and than the caller allows: a count, a vertex number or a jump that
does not fit would need more code than there is room for.
-/

namespace PaintOrder.Model

open Code

variable {limit scratchSize : Nat} {select : Selector} {model : Model}

section Lengths

/-- The code of what is called starts inside the code. -/
theorem entry_lt {assembly : Assembly} (fits : assembly.Fits) {address index entry : Nat}
    (member : (index, entry) ∈ assembly.entries address) :
    entry < address + assembly.code.length := by
  induction assembly generalizing address with
  | stop => cases member
  | points first positions rest ih =>
      have inRest := ih fits.2.2 member
      rw [Assembly.code, List.length_append, length_pointsBytes]
      omega
  | draw polygon rest ih =>
      have inRest := ih fits.2 member
      rw [Assembly.code, List.length_append, fits.1.length_bytes]
      omega
  | sort plane front back frontIH backIH =>
      rw [Assembly.length_sort_code]
      rcases List.mem_append.mp member with inFront | inBack
      · have := frontIH fits.2.1 inFront
        omega
      · have := backIH fits.2.2 inBack
        omega
  | call submodel offset callee ih =>
      have positive := callee.code_length_pos
      rw [Assembly.length_call_code]
      rcases List.mem_cons.mp member with here | below
      · obtain ⟨rfl, rfl⟩ := Prod.mk.inj here
        omega
      · have := ih fits.2.2 below
        omega

/-- Every submodel starts inside the code. -/
theorem Compiled.entry_lt_size {compiled : Model} {rest : Assembly} {finish : Nat}
    (result : Compiled limit select model compiled rest finish) {index : Nat}
    (inRange : index < model.size) : (compiled.submodel index).entry < compiled.data.size := by
  obtain ⟨root, others⟩ := result.entry_eq
  have size : compiled.data.size = (model.submodelCode limit select 0 0 rest).code.length := by
    rw [← Array.length_toList, result.data_eq]
  rw [size]
  rcases List.mem_cons.mp (((result.nested.called_root result.tree).2 index).mpr inRange) with
    rfl | called
  · rw [root]
    exact Assembly.code_length_pos _
  · obtain ⟨entry, member⟩ := Assembly.exists_entry called
      (0 + pointsSize (model.tableOf limit select 0 0).positions.toList.length)
    have listed : (index, entry) ∈ (model.submodelCode limit select 0 0 rest).entries 0 := member
    rw [others index entry listed]
    have := entry_lt result.fits listed
    omega

end Lengths

section Soundness

variable {emitter result : Emitter}

/-- All children were written if the code behind the points was. -/
theorem exists_run_of_writeNested {writeChild : Nat → Emission Unit} {owner : Nat}
    {partition : Partition} {table : VertexTable} {order : List Nat}
    (ran : (writeNested model writeChild owner partition table order).run emitter =
      .ok () result) :
    ∀ child ∈ order, ∃ before after, (writeChild child).run before = .ok () after := by
  induction order generalizing emitter result with
  | nil => simp
  | cons child rest ih =>
      rw [writeNested_cons] at ran
      obtain ⟨_, _, _, frontRan, backRan, _⟩ := Emission.writeBranches_eq_ok ran
      intro other member
      rcases List.mem_cons.mp member with rfl | later
      · exact ⟨_, _, (writeCalled_eq_ok frontRan).2⟩
      · exact ih backRan other later

/-- What was written is sound, down to the last child. -/
theorem sound_of_writeSubmodel {levels index : Nat}
    (ran : (writeSubmodel limit select model levels index).run emitter = .ok () result) :
    ∀ member ∈ model.family levels index, model.Sound limit select member := by
  induction levels generalizing index emitter result with
  | zero => exact absurd ran run_throw_ne_ok
  | succ levels ih =>
      obtain ⟨_, partition, built, valid, _, _, nestedRan⟩ := writeSubmodel_succ_eq_ok.mp ran
      intro member inFamily
      rcases List.mem_cons.mp inFamily with rfl | below
      · exact ⟨partition, built, valid⟩
      · obtain ⟨child, isChild, inChild⟩ := List.mem_flatMap.mp below
        obtain ⟨_, _, childRan⟩ := exists_run_of_writeNested nestedRan child isChild
        exact ih childRan member inChild

end Soundness

section Capacity

/-- A model is compiled exactly if its hierarchy is valid, its partitions are built and pass
their checks, and its code fits.  The code is then as long as that, every submodel starts
inside it, and it is the same however much room there was. -/
theorem compileWith_capacity (limit scratchSize : Nat) (select : Selector) (model : Model) :
    ((∃ compiled, model.compileWith limit scratchSize select = .ok compiled) ↔
      model.validateHierarchy = .ok () ∧
        (∀ index < model.size, model.Sound limit select index) ∧
        model.codeSize limit select ≤ min scratchSize 32767) ∧
    ∀ compiled, model.compileWith limit scratchSize select = .ok compiled →
      compiled.data.size = model.codeSize limit select ∧
      (∀ index < model.size, (compiled.submodel index).entry < compiled.data.size) ∧
      ∀ otherSize other, model.compileWith limit otherSize select = .ok other →
        other.data = compiled.data := by
  refine ⟨⟨?_, ?_⟩, ?_⟩
  · rintro ⟨compiled, succeeds⟩
    obtain ⟨valid, emitter, ran, room, isCompiled⟩ := compileWith_eq_ok_iff.mp succeeds
    obtain ⟨rest, finish, result⟩ := compileWith_eq_ok succeeds
    have length : emitter.code.size = model.codeSize limit select := by
      rw [← result.size_eq, isCompiled]
      rfl
    refine ⟨valid, ?_, length ▸ room⟩
    intro index inRange
    have complete := result.tree.family_perm (Nat.le_refl model.size)
    exact sound_of_writeSubmodel ran index (complete.mem_iff.mpr (List.mem_range.mpr inRange))
  · rintro ⟨valid, sound, room⟩
    exact exists_compileWith (isTree_of_validateHierarchy valid) sound room
  · intro compiled succeeds
    obtain ⟨rest, finish, result⟩ := compileWith_eq_ok succeeds
    refine ⟨result.size_eq, fun index inRange => result.entry_lt_size inRange, ?_⟩
    intro otherSize other otherSucceeds
    obtain ⟨_, emitter, ran, _, rfl⟩ := compileWith_eq_ok_iff.mp succeeds
    obtain ⟨_, _, otherRan, _, rfl⟩ := compileWith_eq_ok_iff.mp otherSucceeds
    rw [ran] at otherRan
    cases otherRan
    rfl

/-- Rooms of a floor and a wall fit into their 740 bytes and into nothing less. -/
theorem crossedRooms_take_740 :
    (∃ compiled, crossedRooms.compileWith 3 740 (Splitter.leastCost 6) = .ok compiled ∧
      compiled.data.size = 740) ∧
    ¬∃ compiled, crossedRooms.compileWith 3 739 (Splitter.leastCost 6) = .ok compiled := by
  let select := Splitter.leastCost 6
  have valid : crossedRooms.validateHierarchy = .ok () := by decide +kernel
  refine ⟨?_, ?_⟩
  · obtain ⟨accepts, describes⟩ := compileWith_capacity 3 740 select crossedRooms
    obtain ⟨exact, exactly⟩ :=
      accepts.mpr ⟨valid, crossedRooms_sound, by rw [crossedRooms_codeSize]; decide⟩
    exact ⟨exact, exactly, (describes exact exactly).1.trans crossedRooms_codeSize⟩
  · intro accepted
    obtain ⟨_, _, room⟩ := (compileWith_capacity 3 739 select crossedRooms).1.mp accepted
    rw [crossedRooms_codeSize] at room
    exact absurd room (by decide)

end Capacity

end PaintOrder.Model
