import PaintOrder.Proofs.Model.Capacity
import PaintOrder.Proofs.Model.Format
import PaintOrder.Proofs.Partition.Cutting

/-!
# Compiling a recovered model again

A model that is recovered from code can be compiled like any other, which chooses all splitters
anew.  What is recovered then has the same submodels with the same links, and the fragments of
their faces.  It is not always the same faces: the fragments of the first partition can make a
splitter cheap that was dear before, and it cuts again.
-/

namespace PaintOrder.Model

open Code

variable {limit : Nat} {select : Selector} {model compiled recovered : Model}

/-- The root of a recovered model has no offset, because nothing calls it. -/
theorem decompile_root_offset {data : Array UInt8} (decompiled : decompile data = .ok model) :
    (model.submodel 0).offset = .zero := by
  rw [decompile] at decompiled
  cases ran : (Execution.fromEntry data 0).run (.start data) with
  | error cause left =>
      rw [decompileAt, ran] at decompiled
      cases decompiled
  | ok nothing result =>
      obtain ⟨program, _, _, _, possible, records⟩ := exists_program_of_run ran
      obtain ⟨calls, rfl⟩ := (decompileAt_of_records possible ran records).mp decompiled
      have uncalled : 0 ∉ History.called (program.events 0 0).reverse := by
        rw [History.called_reverse, List.mem_reverse, calls.mem_iff, List.mem_range'_1]
        omega
      have root : ((ofHistory data 0 (program.events 0 0).reverse).submodel 0).offset =
          ((History.bucket? 0 (program.events 0 0).reverse 0).getD {}).offset := by
        simp [submodel, ofHistory, linkedSubmodel, Array.getD_eq_getD_getElem?]
      rw [root]
      exact History.root_offset uncalled

/-- The faces that are recovered of a submodel are the fragments of its faces. -/
theorem Restores.cutInto (restores : Restores limit select model compiled recovered) {index : Nat}
    (inRange : index < model.size) :
    CutInto (model.submodel index).faces (recovered.submodel index).faces := by
  obtain ⟨partition, built, faces⟩ := restores.faces index inRange
  rw [faces]
  exact Partition.cutInto_of_build built

/-- Submodels are the same, but for cuts through their faces. -/
structure SameButCut (submodel result : Submodel) : Prop where
  offset : result.offset = submodel.offset
  parent : result.parent = submodel.parent
  faces_le : submodel.faces.length ≤ result.faces.length
  paint : ∀ surface normal,
    (∃ face ∈ result.faces, face.surface = surface ∧ face.normal = normal) ↔
      ∃ face ∈ submodel.faces, face.surface = surface ∧ face.normal = normal

/-- What is recovered of a compiled model is the model, but for cuts, if the root of the
model had no offset. -/
theorem Restores.sameButCut (restores : Restores limit select model compiled recovered)
    (unmoved : (model.submodel 0).offset = .zero) {index : Nat} (inRange : index < model.size) :
    SameButCut (model.submodel index) (recovered.submodel index) := by
  have cut := restores.cutInto inRange
  refine ⟨?_, restores.parent index inRange, cut.length_le, cut.paint_iff⟩
  rcases Nat.eq_zero_or_pos index with rfl | positive
  · rw [restores.root_offset, unmoved]
  · exact restores.offset index positive inRange

/-- Code holds the model of other code, but for cuts. -/
def HoldsSameModel (data code : Array UInt8) : Prop :=
  ∃ model result, decompile data = .ok model ∧ decompile code = .ok result ∧
    result.size = model.size ∧
    ∀ index, index < model.size → SameButCut (model.submodel index) (result.submodel index)

section Alone

/-- A model has a single submodel, without links. -/
structure Alone (model : Model) : Prop where
  size_eq : model.size = 1
  rootless : (model.submodel 0).parent = none
  childless : (model.submodel 0).children = []

theorem alone_ofFaces (faces : List Face) : (ofFaces faces).Alone :=
  ⟨rfl, rfl, rfl⟩

theorem Alone.isTree (alone : model.Alone) : model.IsTree := by
  have only : ∀ {index}, index < model.size → index = 0 := by
    intro index inRange
    have := alone.size_eq
    omega
  constructor
  case nonempty =>
    rw [alone.size_eq]
    exact Nat.zero_lt_one
  case rootless => exact alone.rootless
  case listed =>
    intro child positive inRange
    exact absurd (only inRange) (Nat.ne_of_gt positive)
  case acknowledged =>
    intro parent child inRange listed
    rw [only inRange, alone.childless] at listed
    cases listed
  case distinct =>
    intro parent inRange
    rw [only inRange, alone.childless]
    exact List.nodup_nil
  case reached =>
    intro index inRange
    rw [only inRange]
    exact ⟨0, .itself 0⟩

/-- A single submodel takes its points and its partition. -/
theorem Alone.codeSize_eq (alone : model.Alone) :
    model.codeSize limit select = (ofFaces (model.submodel 0).faces).codeSize limit select := by
  have same : ∀ model : Model, model.Alone → model.codeSize limit select =
      pointsSize (model.pointCount limit select 0) +
        (model.partitionOf limit select 0).codeSize := by
    intro model alone
    simp [codeSize, submodelSize, alone.size_eq, alone.childless]
  rw [same model alone, same _ (alone_ofFaces _)]
  rfl

/-- A single submodel whose partition fits can be compiled, and is recovered with the faces of
its partition. -/
theorem Alone.exists_recovered (alone : model.Alone) (limit : Nat) (options : CompileOptions)
    {faces : List Face} (same : (model.submodel 0).faces = faces)
    (sound : (ofFaces faces).Sound limit (Splitter.leastCost options.spanWeight) 0)
    (room : (ofFaces faces).codeSize limit (Splitter.leastCost options.spanWeight) ≤
      min options.scratchSize maxWord) :
    ∃ compiled recovered, model.compile limit options = .ok compiled ∧
      decompile compiled.data = .ok recovered ∧ recovered.Alone ∧
      (recovered.submodel 0).faces =
        ((ofFaces faces).partitionOf limit (Splitter.leastCost options.spanWeight) 0).faces := by
  subst same
  have sounds : ∀ index < model.size,
      model.Sound limit (Splitter.leastCost options.spanWeight) index := by
    intro index inRange
    rw [alone.size_eq, Nat.lt_one_iff] at inRange
    rw [inRange]
    exact sound
  rw [← alone.codeSize_eq] at room
  obtain ⟨compiled, compiles⟩ := exists_compileWith alone.isTree sounds room
  obtain ⟨rest, finish, result⟩ := compileWith_eq_ok compiles
  obtain ⟨recovered, decompiles, restores⟩ :=
    result.decompile_eq.1 (result.depth_le_of_alone alone.size_eq)
  have inRange : 0 < model.size := alone.isTree.nonempty
  obtain ⟨partition, built, faces⟩ := restores.faces 0 inRange
  refine ⟨compiled, recovered, compiles, decompiles, ⟨?_, ?_, ?_⟩, ?_⟩
  · rw [restores.size_eq, alone.size_eq]
  · rw [restores.parent 0 inRange, alone.rootless]
  · rw [restores.children 0 inRange, alone.size_eq]
    simp [alone.rootless]
  · rw [faces, partitionOf_eq (by exact built)]

end Alone

/-- If a recovered model is compiled again, what is recovered then has the fragments of its
faces, which are fragments of the faces of the first model.  They are the same faces exactly if
there are as many of them, and always if no face spans the plane of another one. -/
theorem recompiled_is_only_cut {options : CompileOptions} {first recompiled second : Model}
    (compiles : model.compile limit options = .ok compiled)
    (decompiles : decompile compiled.data = .ok first)
    (compilesAgain : first.compile limit options = .ok recompiled)
    (decompilesAgain : decompile recompiled.data = .ok second) :
    second.size = first.size ∧ ∀ index < first.size,
      let before := (first.submodel index).faces
      let after := (second.submodel index).faces
      CutInto before after ∧ CutInto (model.submodel index).faces after ∧
        (after.Perm before ↔ after.length = before.length) ∧
        (Tree.hasSpanningFace before = false → after.Perm before) := by
  have restores := restores_of_decompile compiles decompiles
  have restoresAgain := restores_of_decompile compilesAgain decompilesAgain
  refine ⟨restoresAgain.size_eq, ?_⟩
  intro index inRange
  obtain ⟨partition, built, faces⟩ := restoresAgain.faces index inRange
  have cut := restoresAgain.cutInto inRange
  have cutBefore := restores.cutInto (restores.size_eq ▸ inRange)
  refine ⟨cut, cutBefore.trans cut, cut.perm_iff, ?_⟩
  intro clear
  rw [faces]
  exact Partition.perm_of_build built clear

section Example

def wall : Face :=
  .plainTriangle ⟨.zero, .zero, .one⟩ ⟨.zero, ⟨-65536⟩, .one⟩ ⟨.zero, .one, .zero⟩
    ⟨.one, .zero, .zero⟩ (.flat 1)

def sheet : Face :=
  .plainTriangle ⟨.one, .one, .zero⟩ ⟨⟨-65536⟩, .one, .zero⟩ ⟨.zero, ⟨-65536⟩, .zero⟩
    ⟨.zero, .zero, .one⟩ (.flat 2)

def shelf : Face :=
  .plainTriangle ⟨.zero, .zero, .zero⟩ ⟨⟨-65536⟩, .zero, ⟨-65536⟩⟩ ⟨⟨-65536⟩, .zero, .zero⟩
    ⟨.zero, .one, .zero⟩ (.flat 3)

def rightHalf : Face :=
  .plainTriangle ⟨.one, .one, .zero⟩ ⟨.zero, .one, .zero⟩ ⟨.zero, ⟨-65536⟩, .zero⟩
    ⟨.zero, .zero, .one⟩ (.flat 2)

def leftHalf : Face :=
  .plainTriangle ⟨.zero, .one, .zero⟩ ⟨⟨-65536⟩, .one, .zero⟩ ⟨.zero, ⟨-65536⟩, .zero⟩
    ⟨.zero, .zero, .one⟩ (.flat 2)

/-- The first partition splits on the sheet, whose plane nothing spans, and then cuts the sheet
along the wall.  With the sheet in two halves the wall is as cheap as they are and comes first;
the shelf is then on the same side as one of the halves, and cuts it. -/
theorem sheet_is_cut_twice : ∃ compiled first recompiled second,
    (ofFaces [wall, sheet, shelf]).compile 4 {} = .ok compiled ∧
      decompile compiled.data = .ok first ∧ first.compile 4 {} = .ok recompiled ∧
      decompile recompiled.data = .ok second ∧ first.size = 1 ∧
      (first.submodel 0).faces = [wall, rightHalf, leftHalf, shelf] ∧
      (second.submodel 0).faces.length = 5 := by
  obtain ⟨compiled, first, compiles, decompiles, firstAlone, firstFaces⟩ :=
    (alone_ofFaces [wall, sheet, shelf]).exists_recovered 4 {} rfl (by decide +kernel)
      (by decide +kernel)
  have halves : (first.submodel 0).faces = [wall, rightHalf, leftHalf, shelf] := by
    rw [firstFaces]
    decide +kernel
  obtain ⟨recompiled, second, compilesAgain, decompilesAgain, _, secondFaces⟩ :=
    firstAlone.exists_recovered 4 {} halves (by decide +kernel) (by decide +kernel)
  refine ⟨compiled, first, recompiled, second, compiles, decompiles, compilesAgain,
    decompilesAgain, firstAlone.size_eq, halves, ?_⟩
  rw [secondFaces]
  decide +kernel

/-- Compiling a recovered model again cuts only, but it can cut further. -/
theorem sheet_is_only_cut : ∃ compiled first recompiled second,
    (ofFaces [wall, sheet, shelf]).compile 4 {} = .ok compiled ∧
      decompile compiled.data = .ok first ∧ first.compile 4 {} = .ok recompiled ∧
      decompile recompiled.data = .ok second ∧
      CutInto (first.submodel 0).faces (second.submodel 0).faces ∧
      CutInto [wall, sheet, shelf] (second.submodel 0).faces := by
  obtain ⟨compiled, first, recompiled, second, compiles, decompiles, compilesAgain,
    decompilesAgain, alone, _⟩ := sheet_is_cut_twice
  have cut := (recompiled_is_only_cut compiles decompiles compilesAgain decompilesAgain).2 0
    (alone ▸ Nat.zero_lt_one)
  exact ⟨compiled, first, recompiled, second, compiles, decompiles, compilesAgain,
    decompilesAgain, cut.1, cut.2.1⟩

theorem sheet_is_cut_further : ∃ compiled first recompiled second,
    (ofFaces [wall, sheet, shelf]).compile 4 {} = .ok compiled ∧
      decompile compiled.data = .ok first ∧ first.compile 4 {} = .ok recompiled ∧
      decompile recompiled.data = .ok second ∧ 0 < first.size ∧
      ¬(second.submodel 0).faces.Perm (first.submodel 0).faces := by
  obtain ⟨compiled, first, recompiled, second, compiles, decompiles, compilesAgain,
    decompilesAgain, alone, halves, fiveFaces⟩ := sheet_is_cut_twice
  refine ⟨compiled, first, recompiled, second, compiles, decompiles, compilesAgain,
    decompilesAgain, alone ▸ Nat.zero_lt_one, ?_⟩
  intro perm
  have sameLength := perm.length_eq
  rw [halves, fiveFaces] at sameLength
  cases sameLength

end Example

end PaintOrder.Model
