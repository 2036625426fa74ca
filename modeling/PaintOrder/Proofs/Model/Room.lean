import PaintOrder.Proofs.Code.Sizes
import PaintOrder.Proofs.Model.Depth
import PaintOrder.Proofs.Partition.Completeness
import PaintOrder.Proofs.Partition.Validity

/-!
# Room for a model

The size of the code of a model follows from its partitions and its children alone: every
submodel takes its points, its tree, and a sort and a call for each child.  A tree of submodels
with sound partitions is compiled wherever there is room for that much code.
-/

namespace PaintOrder.Model

open Code

variable {limit : Nat} {select : Selector} {model : Model}

/-- The number of different positions of the vertices in the partition of a submodel. -/
def pointCount (limit : Nat) (select : Selector) (model : Model) (index : Nat) : Nat :=
  (VertexTable.positionsOf (model.partitionOf limit select index).faces).dedup.length

/-- A child takes a sort and a call, each with a stop: 56 bytes. -/
def nestSize : Nat :=
  sortSize + stopSize + (callSize + stopSize)

/-- The size of the code of a submodel without the code of its children. -/
def submodelSize (limit : Nat) (select : Selector) (model : Model) (index : Nat) : Nat :=
  pointsSize (model.pointCount limit select index) +
    nestSize * (model.submodel index).children.length +
    (model.partitionOf limit select index).codeSize

/-- The size of the code of a model. -/
def codeSize (limit : Nat) (select : Selector) (model : Model) : Nat :=
  ((List.range model.size).map (model.submodelSize limit select)).sum

/-- The partition of a submodel can be built and passes its check. -/
def Sound (limit : Nat) (select : Selector) (model : Model) (index : Nat) : Prop :=
  ∃ partition, Partition.build limit select (model.submodel index).faces = .ok partition ∧
    partition.validate = .ok ()

instance (limit : Nat) (select : Selector) (model : Model) (index : Nat) :
    Decidable (Sound limit select model index) :=
  decidable_of_iff ((Partition.build limit select (model.submodel index).faces).toOption.map
    Partition.validate = some (.ok ())) (by
    rw [Sound]
    cases Partition.build limit select (model.submodel index).faces <;> simp [Except.toOption])

section Lengths

theorem size_tableOf (index base : Nat) :
    (model.tableOf limit select index base).positions.toList.length =
      model.pointCount limit select index :=
  (VertexTable.insertFaces_numbers base _).size_eq

theorem length_nestingOrder (index : Nat) :
    (model.nestingOrder index).length = (model.submodel index).children.length :=
  (model.nestingOrder_perm index).length_eq

/-- What is written of a submodel after its points takes its own tree, and for every child
that is left its sort, its call and whatever is called with it. -/
theorem Nested.length_eq {owner base first finish : Nat} {order : List Nat} {code : Assembly}
    (nested : Nested limit select model owner base order first code finish) :
    code.code.length = nestSize * order.length +
      (code.called.map (model.submodelSize limit select)).sum +
      (model.partitionOf limit select owner).codeSize := by
  induction nested with
  | @own owner base first built writable =>
      rw [Assembly.called_ofPartition, Assembly.length_ofPartition writable]
      simp
  | @nest owner base child first middle finish order code rest callee later calleeIH laterIH =>
      rw [length_nestingOrder] at calleeIH
      simp only [submodelCode, Assembly.code, Assembly.called, List.length_append,
        length_sortBytes, length_callBytes, length_stopBytes, length_pointsBytes, size_tableOf,
        calleeIH, laterIH, List.map_append, List.map_cons, List.sum_append, List.sum_cons,
        List.length_cons, submodelSize, nestSize, Nat.mul_succ]
      omega

theorem Compiled.size_eq {compiled : Model} {rest : Assembly} {finish : Nat}
    (result : Compiled limit select model compiled rest finish) :
    compiled.data.size = model.codeSize limit select := by
  have perm := (result.nested.called_perm result.tree).map (model.submodelSize limit select)
  rw [result.length_eq, size_tableOf, result.nested.length_eq, length_nestingOrder, codeSize,
    ← perm.sum_eq, List.map_cons, List.sum_cons, submodelSize]
  omega

end Lengths

section Room

variable {levels index scratchSize : Nat}

/-- What is written of a submodel after its points takes its own tree, and for every child
its sort, its call and what the child takes. -/
theorem writeNested_takes {writeChild : Nat → Emission Unit} {size : Nat → Nat} {owner own : Nat}
    {partition : Partition} {table : VertexTable} {order : List Nat}
    (childTakes : ∀ child ∈ order, Emission.Takes (writeChild child) (size child))
    (few : ∀ child ∈ order, child ≤ maxWord)
    (ownTakes : Emission.Takes (writeNested model writeChild owner partition table []) own) :
    Emission.Takes (writeNested model writeChild owner partition table order)
      (nestSize * order.length + (order.map size).sum + own) := by
  induction order with
  | nil => simpa using ownTakes
  | cons child rest ih =>
      have restTakes := ih (fun other member => childTakes other (by simp [member]))
        fun other member => few other (by simp [member])
      have called : Emission.Takes (model.writeCalled writeChild child)
          (Assembly.callJump + size child) :=
        Emission.writeCall_takes (few child (by simp)) _ (childTakes child (by simp))
      have length : nestSize * (child :: rest).length + ((child :: rest).map size).sum + own =
          Assembly.frontJump + (Assembly.callJump + size child) +
            (nestSize * rest.length + (rest.map size).sum + own) := by
        rw [List.map_cons, List.sum_cons, List.length_cons, Nat.mul_succ, nestSize,
          Assembly.frontJump, Assembly.callJump]
        omega
      rw [writeNested_cons, length]
      exact Emission.writeBranches_takes _ called restTakes

/-- The tree of a submodel can be written with a table of its positions, if the numbers of
the table fit. -/
theorem writePartition_takes {faces : List Face} {partition : Partition}
    (built : Partition.build limit select faces = .ok partition)
    (valid : partition.validate = .ok ()) {base : Nat}
    (fits : (VertexTable.insertFaces { base := base } partition.faces).finish ≤ maxWord)
    (writeChild : Nat → Emission Unit) (owner : Nat) :
    Emission.Takes (writeNested model writeChild owner partition
      (VertexTable.insertFaces { base := base } partition.faces) []) partition.codeSize := by
  have proper := Partition.proper_of_build built
  have numbered : ∀ face ∈ partition.faces, ∀ vertex ∈ face.vertices,
      Emission.Numbered (VertexTable.insertFaces { base := base } partition.faces) vertex := by
    intro face inPartition vertex inFace
    have numbers := VertexTable.insertFaces_numbers base partition.faces
    have listed : vertex.position ∈ VertexTable.positionsOf partition.faces :=
      List.mem_flatMap.mpr ⟨face, inPartition, List.mem_map_of_mem inFace⟩
    obtain ⟨number, isNumber⟩ := numbers.mem_iff.mp listed
    exact ⟨number, isNumber, (numbers.faithful.lt_finish isNumber).le.trans fits⟩
  rw [writeNested, Partition.codeSize]
  rw [Partition.validate] at valid
  cases rooted : partition.root? with
  | none => exact Emission.write_takes stopBytes
  | some tree =>
      have inPartition : ∀ face ∈ tree.faces, face ∈ partition.faces := by
        rw [Partition.faces, rooted]
        exact fun face => id
      rw [rooted] at valid
      exact Emission.writeTree_takes valid
        (fun face member => proper face (inPartition face member))
        fun face member => numbered face (inPartition face member)

/-- A submodel takes its points and what comes after them. -/
theorem writeSubmodel_takes {nested : Nat} {partition : Partition}
    (built : Partition.build limit select (model.submodel index).faces = .ok partition)
    (valid : partition.validate = .ok ())
    (nestedTakes : ∀ base,
      (VertexTable.insertFaces { base := base } partition.faces).finish ≤ maxWord →
      Emission.Takes (writeNested model (writeSubmodel limit select model levels) index partition
        (VertexTable.insertFaces { base := base } partition.faces) (model.nestingOrder index))
        nested) :
    Emission.Takes (writeSubmodel limit select model (levels + 1) index)
      (pointsSize (model.pointCount limit select index) + nested) := by
  intro emitter covered room
  let table := VertexTable.insertFaces { base := emitter.nextVertex } partition.faces
  have numbers := VertexTable.insertFaces_numbers emitter.nextVertex partition.faces
  have next : table.base = emitter.nextVertex := numbers.base_eq
  have count : table.size = model.pointCount limit select index := by
    rw [pointCount, partitionOf_eq built]
    exact numbers.size_eq
  rw [← count] at room ⊢
  obtain ⟨finish, written, pointsRan, writtenCovered, writtenSize⟩ :=
    Emission.writePoints_takes covered next
      (emitter.entries.setIfInBounds index emitter.code.size) (by omega)
  obtain ⟨result, nestedRan, resultCovered, resultSize⟩ :=
    nestedTakes emitter.nextVertex finish written writtenCovered (by omega)
  refine ⟨result, ?_, resultCovered, by omega⟩
  exact writeSubmodel_succ_eq_ok.mpr
    ⟨by omega, partition, built, valid, written, pointsRan, nestedRan⟩

theorem sum_map_flatMap (elements : List Nat) (below : Nat → List Nat) (size : Nat → Nat) :
    ((elements.flatMap below).map size).sum =
      (elements.map fun element => ((below element).map size).sum).sum := by
  induction elements with
  | nil => rfl
  | cons element rest ih =>
      rw [List.flatMap_cons, List.map_append, List.sum_append, ih, List.map_cons, List.sum_cons]

/-- A submodel and everything below it take the sizes of all of them. -/
theorem writeSubmodel_takes_family (tree : model.IsTree) (few : model.size ≤ maxWord)
    (sound : ∀ index < model.size, model.Sound limit select index)
    (inRange : index < model.size)
    (enough : ∀ steps member, model.Descends steps index member → steps < levels) :
    Emission.Takes (writeSubmodel limit select model levels index)
      ((model.family levels index).map (model.submodelSize limit select)).sum := by
  induction levels generalizing index with
  | zero => exact absurd (enough 0 index (.itself index)) (Nat.not_lt_zero 0)
  | succ levels ih =>
      obtain ⟨partition, built, valid⟩ := sound index inRange
      have known : ∀ child ∈ model.nestingOrder index,
          child < model.size ∧ (model.submodel child).parent = some index :=
        fun child => tree.parent_of_mem_nestingOrder inRange
      have childTakes : ∀ child ∈ model.nestingOrder index,
          Emission.Takes (writeSubmodel limit select model levels child)
            ((model.family levels child).map (model.submodelSize limit select)).sum := by
        intro child isChild
        obtain ⟨childInRange, linked⟩ := known child isChild
        refine ih childInRange ?_
        intro steps member below
        have := enough _ member ((Descends.child (.itself index) linked).trans below)
        omega
      have small : ∀ child ∈ model.nestingOrder index, child ≤ maxWord :=
        fun child isChild => Nat.le_trans (known child isChild).1.le few
      have takes := writeSubmodel_takes built valid fun base fits =>
        writeNested_takes childTakes small (writePartition_takes built valid fits _ index)
      rw [family, List.map_cons, List.sum_cons, sum_map_flatMap, submodelSize,
        partitionOf_eq built, ← length_nestingOrder, Nat.add_assoc, Nat.add_assoc,
        Nat.add_comm partition.codeSize, ← Nat.add_assoc (nestSize * _)]
      exact takes

/-- No submodel is written as nothing. -/
theorem size_le_codeSize : model.size ≤ model.codeSize limit select := by
  have each : ∀ size ∈ (List.range model.size).map (model.submodelSize limit select),
      1 ≤ size := by
    intro size member
    obtain ⟨index, _, rfl⟩ := List.mem_map.mp member
    rw [submodelSize, pointsSize, pointsHeaderSize]
    omega
  have counted := List.length_le_sum_of_one_le _ each
  rwa [List.length_map, List.length_range] at counted

/-- Whatever can be partitioned is compiled if there is room for it. -/
theorem exists_compileWith (tree : model.IsTree)
    (sound : ∀ index < model.size, model.Sound limit select index)
    (room : model.codeSize limit select ≤ min scratchSize maxWord) :
    ∃ compiled, model.compileWith limit scratchSize select = .ok compiled := by
  have fits : model.codeSize limit select ≤ maxWord := (Nat.le_min.mp room).2
  have perm := (tree.family_perm (Nat.le_refl _)).map (model.submodelSize limit select)
  have takes := writeSubmodel_takes_family tree (Nat.le_trans size_le_codeSize fits) sound
    tree.nonempty fun _ _ below => tree.steps_lt_size below
  rw [perm.sum_eq] at takes
  obtain ⟨emitter, ran, _, size⟩ :=
    takes { entries := Array.replicate model.size 0 } (Nat.zero_le _) (by
      change #[].size + model.codeSize limit select ≤ maxWord
      simpa using fits)
  have length : emitter.code.size = model.codeSize limit select := by
    rw [size]
    exact Nat.zero_add _
  exact ⟨_, compileWith_eq_ok_iff.mpr
    ⟨validateHierarchy_of_isTree tree, emitter, ran, by rwa [length], rfl⟩⟩

end Room

section Example

/-- A floor with a wall through it, and the same again as a part of it. -/
def crossedRooms : Model where
  submodels := #[
    { children := [1], faces := [floorTriangle, crossingTriangle] },
    { offset := ⟨⟨196608⟩, .zero, .zero⟩, parent := some 0
      faces := [floorTriangle, crossingTriangle] }]

/-- The floor and the wall of each submodel cut each other into four faces with nine points. -/
theorem crossedRooms_partition : ∃ partition,
    (∀ index < crossedRooms.size, Partition.build 3 (Splitter.leastCost 6)
      (crossedRooms.submodel index).faces = .ok partition) ∧
    partition.validate = .ok () ∧ partition.codeSize = 226 ∧ partition.faces.length = 4 ∧
    (VertexTable.positionsOf partition.faces).dedup.length = 9 := by
  have seen : (Partition.build 3 (Splitter.leastCost 6)
      [floorTriangle, crossingTriangle]).toOption.map (fun partition =>
        (partition.validate, partition.codeSize, partition.faces.length,
          (VertexTable.positionsOf partition.faces).dedup.length)) =
      some (.ok (), 226, 4, 9) := by
    decide +kernel
  obtain ⟨partition, built, described⟩ := exists_of_map_toOption seen
  simp only [Prod.mk.injEq] at described
  refine ⟨partition, ?_, described⟩
  intro index inRange
  match index, inRange with
  | 0, _ => exact built
  | 1, _ => exact built

theorem crossedRooms_sound :
    ∀ index < crossedRooms.size, crossedRooms.Sound 3 (Splitter.leastCost 6) index := by
  obtain ⟨partition, built, valid, _⟩ := crossedRooms_partition
  exact fun index inRange => ⟨partition, built index inRange, valid⟩

/-- The points of each take 116 bytes, the trees 226 bytes each, and the child 56 bytes more. -/
theorem crossedRooms_codeSize : crossedRooms.codeSize 3 (Splitter.leastCost 6) = 740 := by
  obtain ⟨partition, built, _, treeSize, _, points⟩ := crossedRooms_partition
  have sizes : ∀ index < crossedRooms.size,
      crossedRooms.submodelSize 3 (Splitter.leastCost 6) index =
        342 + 56 * (crossedRooms.submodel index).children.length := by
    intro index inRange
    rw [submodelSize, pointCount, partitionOf_eq (built index inRange), points, treeSize]
    simp only [pointsSize, pointsHeaderSize, FixedVector.byteSize, nestSize, sortSize, stopSize,
      callSize]
    omega
  calc
    crossedRooms.codeSize 3 (Splitter.leastCost 6) =
        ((List.range 2).map fun index =>
          342 + 56 * (crossedRooms.submodel index).children.length).sum := by
      rw [codeSize]
      exact congrArg List.sum (List.map_congr_left fun index member =>
        sizes index (List.mem_range.mp member))
    _ = 740 := rfl

theorem crossedRooms_compiles : ∃ compiled, crossedRooms.compile 3 {} = .ok compiled := by
  have valid : crossedRooms.validateHierarchy = .ok () := by decide +kernel
  refine exists_compileWith (isTree_of_validateHierarchy valid) crossedRooms_sound ?_
  change crossedRooms.codeSize 3 (Splitter.leastCost 6) ≤ _
  rw [crossedRooms_codeSize]
  decide

/-- So little code does not nest deeply. -/
theorem crossedRooms_shallow {compiled : Model} {rest : Assembly} {finish : Nat}
    (result : Compiled 3 (Splitter.leastCost 6) crossedRooms compiled rest finish) :
    rest.depth ≤ nestingLimit := by
  apply result.depth_le_of_size_le
  rw [result.size_eq, crossedRooms_codeSize]
  decide

end Example

end PaintOrder.Model
