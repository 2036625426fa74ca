import PaintOrder.Proofs.Model.Standalone

/-!
# What compiling looks at

A submodel is given by its offset, its links and its faces; its bounds and its entry, and the
code of a model, are what compiling makes of them.  Compiling looks at nothing that it makes
itself, so models that are given in the same way are compiled in the same way, and compiling
a compiled model again gives just that model.
-/

namespace PaintOrder

namespace Submodel

variable {submodel other : Submodel}

/-- A submodel without what compiling makes of it. -/
def source (submodel : Submodel) : Submodel :=
  { submodel with bounds := {}, entry := 0 }

theorem source_eq_iff : submodel.source = other.source ↔
    submodel.offset = other.offset ∧ submodel.parent = other.parent ∧
      submodel.children = other.children ∧ submodel.faces = other.faces := by
  simp [source]

@[simp] theorem offset_source : submodel.source.offset = submodel.offset := rfl

@[simp] theorem parent_source : submodel.source.parent = submodel.parent := rfl

@[simp] theorem children_source : submodel.source.children = submodel.children := rfl

@[simp] theorem faces_source : submodel.source.faces = submodel.faces := rfl

@[simp] theorem representativePoint_source :
    submodel.source.representativePoint = submodel.representativePoint := rfl

@[simp] theorem center_source : submodel.source.center = submodel.center := rfl

end Submodel

namespace Model

open Code

variable {model other : Model}

/-- Two models have as many submodels, which are given in the same way. -/
structure SameSource (model other : Model) : Prop where
  size_eq : model.size = other.size
  offset_eq : ∀ index, (model.submodel index).offset = (other.submodel index).offset
  parent_eq : ∀ index, (model.submodel index).parent = (other.submodel index).parent
  children_eq : ∀ index, (model.submodel index).children = (other.submodel index).children
  faces_eq : ∀ index, (model.submodel index).faces = (other.submodel index).faces

/-- A model without what compiling makes of it. -/
def source (model : Model) : Model where
  submodels := model.submodels.map Submodel.source

@[simp] theorem size_source : model.source.size = model.size :=
  Array.size_map

@[simp] theorem submodel_source (model : Model) (index : Nat) :
    model.source.submodel index = (model.submodel index).source := by
  simp only [submodel, source, Array.getD_eq_getD_getElem?, Array.getElem?_map]
  cases model.submodels[index]? <;> rfl

theorem source_eq_of_submodels (sameSize : model.size = other.size)
    (same : ∀ index, (model.submodel index).source = (other.submodel index).source) :
    model.source = other.source := by
  have submodels : model.source.submodels = other.source.submodels := by
    apply Array.ext
    · exact size_source.trans (sameSize.trans size_source.symm)
    · intro index inModel inOther
      have here := same index
      rw [← submodel_source, ← submodel_source] at here
      simpa [submodel, inModel, inOther] using here
  exact congrArg (fun submodels => ({ submodels := submodels } : Model)) submodels

theorem sameSource_iff : SameSource model other ↔ model.source = other.source := by
  constructor
  · intro same
    refine source_eq_of_submodels same.size_eq fun index => Submodel.source_eq_iff.mpr ?_
    exact ⟨same.offset_eq index, same.parent_eq index, same.children_eq index,
      same.faces_eq index⟩
  · intro same
    have fields := fun index => Submodel.source_eq_iff.mp
      (by rw [← submodel_source, same, submodel_source] :
        (model.submodel index).source = (other.submodel index).source)
    refine ⟨?_, fun index => (fields index).1, fun index => (fields index).2.1,
      fun index => (fields index).2.2.1, fun index => (fields index).2.2.2⟩
    rw [← size_source, same, size_source]

section Hierarchy

theorem linkFault?_source (model : Model) (child : Nat) :
    model.source.linkFault? child = model.linkFault? child := by
  simp only [linkFault?, submodel_source, size_source, Submodel.parent_source,
    Submodel.children_source]

theorem acknowledges_source (model : Model) (parent child : Nat) :
    model.source.acknowledges parent child = model.acknowledges parent child := by
  simp only [acknowledges, submodel_source, size_source, Submodel.parent_source]

theorem search_source (model : Model) (seen : Array Bool) (stack : List Nat) :
    model.source.search seen stack = model.search seen stack := by
  fun_induction search model seen stack with
  | case1 seen => rw [search]
  | case2 seen index stack inRange reached => rw [search, dif_pos inRange, if_pos reached]
  | case3 seen index stack inRange fresh children child found =>
      rw [search, dif_pos inRange, if_neg fresh]
      simp only [acknowledges_source, submodel_source, Submodel.children_source]
      rw [found]
  | case4 seen index stack inRange fresh children found ih =>
      rw [search, dif_pos inRange, if_neg fresh]
      simp only [acknowledges_source, submodel_source, Submodel.children_source]
      rw [found, ih]
  | case5 seen index stack outside => rw [search, dif_neg outside]

theorem validateHierarchy_source (model : Model) :
    model.source.validateHierarchy = model.validateHierarchy := by
  have empty : model.source.submodels.isEmpty = model.submodels.isEmpty := by
    simp only [Array.isEmpty, source, Array.size_map]
  have links : model.source.linkFault? = model.linkFault? := funext model.linkFault?_source
  simp only [validateHierarchy, empty, links, submodel_source, size_source, search_source,
    Submodel.parent_source]

end Hierarchy

section Writing

variable {limit scratchSize : Nat} {select : Selector}

theorem nestingOrder_source (model : Model) (parent : Nat) :
    model.source.nestingOrder parent = model.nestingOrder parent := by
  simp only [nestingOrder, childKeys, submodel_source, Submodel.children_source,
    Submodel.center_source, Submodel.representativePoint_source]

theorem separatingPlane_source (model : Model) (parent child : Nat) :
    model.source.separatingPlane parent child = model.separatingPlane parent child := by
  simp only [separatingPlane, submodel_source, Submodel.center_source,
    Submodel.representativePoint_source]

theorem writeNested_source (model : Model) (writeChild : Nat → Emission Unit) (parent : Nat)
    (partition : Partition) (table : VertexTable) (order : List Nat) :
    writeNested model.source writeChild parent partition table order =
      writeNested model writeChild parent partition table order := by
  induction order with
  | nil => rfl
  | cons child rest ih =>
      simp only [writeNested, separatingPlane_source, submodel_source, Submodel.offset_source, ih]

theorem writeSubmodel_source (limit : Nat) (select : Selector) (model : Model) (levels : Nat) :
    writeSubmodel limit select model.source levels = writeSubmodel limit select model levels := by
  induction levels with
  | zero => rfl
  | succ levels ih =>
      funext index
      simp only [writeSubmodel, submodel_source, Submodel.faces_source, nestingOrder_source,
        writeNested_source, ih]

/-- The entries that are recorded, and the bounds, are the same for the source of a model. -/
theorem updateBounds_source (model : Model) (entries : Array Nat) (data : Array UInt8) :
    updateBounds
        { submodels := model.source.submodels.zipWith
            (fun submodel entry => { submodel with entry := entry }) entries
          data := data } =
      updateBounds
        { submodels := model.submodels.zipWith
            (fun submodel entry => { submodel with entry := entry }) entries
          data := data } := by
  simp only [updateBounds, source, Array.map_zipWith, Array.zipWith_map_left]
  rfl

theorem compileWith_source (limit scratchSize : Nat) (select : Selector) (model : Model) :
    model.source.compileWith limit scratchSize select =
      model.compileWith limit scratchSize select := by
  simp only [compileWith, validateHierarchy_source, writeSubmodel_source, size_source,
    updateBounds_source]

/-- Compiling leaves what a model was given by. -/
theorem source_of_compileWith {compiled : Model}
    (succeeds : model.compileWith limit scratchSize select = .ok compiled) :
    compiled.source = model.source := by
  obtain ⟨valid, emitter, ran, _, rfl⟩ := compileWith_eq_ok_iff.mp succeeds
  have tree := isTree_of_validateHierarchy valid
  obtain ⟨rest, finish, _, _, _, written⟩ := writeSubmodel_eq_ok tree tree.nonempty ran
  have recorded : emitter.entries.size = model.submodels.size := by
    rw [written, Emitter.append_entries]
    exact (recordEntries_size _ _).trans Array.size_replicate
  refine congrArg (fun submodels => ({ submodels := submodels } : Model)) (Array.ext ?_ ?_)
  · simp only [updateBounds, Array.size_map, Array.size_zipWith, recorded, Nat.min_self]
  · intro index inCompiled inModel
    simp only [updateBounds, Array.getElem_map, Array.getElem_zipWith]
    rfl

end Writing

/-- Compiling looks only at how a model is given.  Models that are given in the same way are
refused for the same reason or compiled to the same model, whatever bounds, entries and code
they hold; the compiled model is given in the same way still, so that compiling it again
leaves it as it is. -/
theorem compileWith_depends_on_source (same : SameSource model other)
    (limit scratchSize : Nat) (select : Selector) :
    model.compileWith limit scratchSize select = other.compileWith limit scratchSize select ∧
      ∀ compiled, model.compileWith limit scratchSize select = .ok compiled →
        SameSource compiled model ∧
          compiled.compileWith limit scratchSize select = .ok compiled := by
  have sameSource := sameSource_iff.mp same
  constructor
  · rw [← compileWith_source, sameSource, compileWith_source]
  · intro compiled succeeds
    have kept := source_of_compileWith succeeds
    refine ⟨sameSource_iff.mpr kept, ?_⟩
    rw [← compileWith_source, kept, compileWith_source, succeeds]

section Example

/-- The crossed rooms with code, entries and bounds left over from something else. -/
def staleRooms : Model where
  submodels := crossedRooms.submodels.map fun submodel =>
    { submodel with bounds := ⟨.zero, ⟨.one, .one, .one⟩, .one⟩, entry := 7 }
  data := #[1, 2, 3]

theorem staleRooms_compiles_as_crossedRooms :
    SameSource staleRooms crossedRooms ∧ staleRooms ≠ crossedRooms ∧
      ∃ compiled, crossedRooms.compileWith 3 32768 (Splitter.leastCost 6) = .ok compiled ∧
        staleRooms.compileWith 3 32768 (Splitter.leastCost 6) = .ok compiled ∧
        compiled.compileWith 3 32768 (Splitter.leastCost 6) = .ok compiled := by
  have same : SameSource staleRooms crossedRooms := sameSource_iff.mpr (by decide +kernel)
  obtain ⟨compiled, compiles⟩ := crossedRooms_compiles
  obtain ⟨agrees, kept⟩ :=
    compileWith_depends_on_source same 3 32768 (Splitter.leastCost 6)
  have compilesToo := agrees.trans compiles
  exact ⟨same, by decide +kernel, compiled, compiles, compilesToo, (kept compiled compilesToo).2⟩

end Example

end Model

end PaintOrder
