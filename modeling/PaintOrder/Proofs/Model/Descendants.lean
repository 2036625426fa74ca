import Mathlib.Data.List.Nodup
import Mathlib.Data.List.Perm.Subperm
import PaintOrder.Proofs.Model.Hierarchy
import PaintOrder.Proofs.Model.Layout
import PaintOrder.Proofs.Model.Nesting

/-!
# Every submodel is called once

The family of a submodel is the submodel and everything below it, in the order in which it is
written.  In a valid hierarchy the submodels below different children are different, and
every submodel except the root is below the root; so the family of the root is all
submodels, each once, and the code of a model calls every other submodel exactly once.
-/

namespace PaintOrder

open Code

namespace Code.Assembly

/-- The submodels that are called, in the order in which they are written. -/
def called : Assembly → List Nat
  | stop => []
  | points _ _ rest => rest.called
  | draw _ rest => rest.called
  | sort _ front back => front.called ++ back.called
  | call submodel _ callee => submodel :: callee.called

theorem entries_fst (assembly : Assembly) (address : Nat) :
    (assembly.entries address).map Prod.fst = assembly.called := by
  induction assembly generalizing address with
  | stop => rfl
  | points first positions rest ih => exact ih _
  | draw polygon rest ih => exact ih _
  | sort plane front back frontIH backIH => simp [entries, called, frontIH, backIH]
  | call submodel offset callee ih => simp [entries, called, ih]

/-- Whatever is called has an entry. -/
theorem exists_entry {assembly : Assembly} {index : Nat} (called : index ∈ assembly.called)
    (address : Nat) : ∃ entry, (index, entry) ∈ assembly.entries address := by
  rw [← entries_fst assembly address] at called
  obtain ⟨⟨_, entry⟩, member, rfl⟩ := List.mem_map.mp called
  exact ⟨entry, member⟩

@[simp] theorem called_ofPartition (table : VertexTable) (partition : Partition) :
    (ofPartition table partition).called = [] := by
  rw [← entries_fst _ 0, ofPartition_entries]
  rfl

end Code.Assembly

namespace Model

/-- A submodel and everything below it, at most `levels` levels deep. -/
def family (model : Model) : (levels index : Nat) → List Nat
  | 0, _ => []
  | levels + 1, index => index :: (model.nestingOrder index).flatMap (family model levels)

variable {limit : Nat} {select : Selector} {model : Model}

theorem IsTree.parent_of_mem_nestingOrder (tree : model.IsTree) {index child : Nat}
    (inRange : index < model.size) (member : child ∈ model.nestingOrder index) :
    child < model.size ∧ (model.submodel child).parent = some index :=
  tree.acknowledged index child inRange ((model.nestingOrder_perm index).mem_iff.mp member)

theorem IsTree.mem_nestingOrder (tree : model.IsTree) {index child : Nat}
    (linked : (model.submodel child).parent = some index) :
    child ∈ model.nestingOrder index :=
  (model.nestingOrder_perm index).mem_iff.mpr (tree.mem_children linked).2

theorem IsTree.descends_of_mem_family (tree : model.IsTree) {levels index member : Nat}
    (inRange : index < model.size) (inside : member ∈ model.family levels index) :
    member < model.size ∧ ∃ steps, model.Descends steps index member := by
  induction levels generalizing index with
  | zero => cases inside
  | succ levels ih =>
      rcases List.mem_cons.mp inside with rfl | below
      · exact ⟨inRange, 0, .itself member⟩
      · obtain ⟨child, isChild, inFamily⟩ := List.mem_flatMap.mp below
        obtain ⟨childInRange, linked⟩ := tree.parent_of_mem_nestingOrder inRange isChild
        obtain ⟨memberInRange, steps, descends⟩ := ih childInRange inFamily
        exact ⟨memberInRange, _, (Descends.child (.itself index) linked).trans descends⟩

theorem IsTree.mem_family (tree : model.IsTree) {levels steps index member : Nat}
    (descends : model.Descends steps index member) (enough : steps < levels) :
    member ∈ model.family levels index := by
  induction steps generalizing levels index with
  | zero =>
      cases descends
      obtain ⟨levels, rfl⟩ : ∃ less, levels = less + 1 := ⟨levels - 1, by omega⟩
      exact List.mem_cons_self
  | succ steps ih =>
      obtain ⟨levels, rfl⟩ : ∃ less, levels = less + 1 := ⟨levels - 1, by omega⟩
      obtain ⟨child, linked, below⟩ := descends.exists_child
      exact List.mem_cons_of_mem _
        (List.mem_flatMap.mpr ⟨child, tree.mem_nestingOrder linked, ih below (by omega)⟩)

/-- Nothing is twice in a family. -/
theorem IsTree.family_nodup (tree : model.IsTree) {levels index : Nat}
    (inRange : index < model.size) : (model.family levels index).Nodup := by
  induction levels generalizing index with
  | zero => exact List.nodup_nil
  | succ levels ih =>
      have known : ∀ child ∈ model.nestingOrder index,
          child < model.size ∧ (model.submodel child).parent = some index :=
        fun child => tree.parent_of_mem_nestingOrder inRange
      have distinct : (model.nestingOrder index).Nodup :=
        (model.nestingOrder_perm index).nodup_iff.mpr (tree.distinct index inRange)
      refine List.nodup_cons.mpr ⟨?_, List.nodup_flatMap.mpr ⟨?_, ?_⟩⟩
      · intro again
        obtain ⟨child, isChild, inFamily⟩ := List.mem_flatMap.mp again
        obtain ⟨childInRange, linked⟩ := known child isChild
        obtain ⟨_, steps, descends⟩ := tree.descends_of_mem_family childInRange inFamily
        have cycle := (Descends.child (.itself index) linked).trans descends
        rw [Nat.zero_add, Nat.add_comm] at cycle
        exact tree.not_descends_itself inRange cycle
      · intro child isChild
        exact ih (known child isChild).1
      · refine List.Pairwise.imp_of_mem ?_ distinct
        intro child other isChild isOther different member inChild inOther
        obtain ⟨childInRange, linked⟩ := known child isChild
        obtain ⟨otherInRange, otherLinked⟩ := known other isOther
        obtain ⟨_, _, below⟩ := tree.descends_of_mem_family childInRange inChild
        obtain ⟨_, _, otherBelow⟩ := tree.descends_of_mem_family otherInRange inOther
        exact different (tree.child_unique inRange linked otherLinked below otherBelow)

/-- The way down to a member passes through as many other members. -/
theorem IsTree.lt_length_family (tree : model.IsTree) {steps index member : Nat}
    (descends : model.Descends steps index member) :
    steps < (model.family (steps + 1) index).length := by
  induction steps generalizing index with
  | zero => exact Nat.zero_lt_succ _
  | succ steps ih =>
      obtain ⟨child, linked, below⟩ := descends.exists_child
      have longer : (model.family (steps + 1) child).length ≤
          ((model.nestingOrder index).flatMap (model.family (steps + 1))).length :=
        (List.sublist_flatten_of_mem
          (List.mem_map_of_mem (tree.mem_nestingOrder linked))).length_le
      have := ih below
      rw [family, List.length_cons]
      omega

/-- There are fewer levels below the root than submodels. -/
theorem IsTree.steps_lt_size (tree : model.IsTree) {steps index : Nat}
    (descends : model.Descends steps 0 index) : steps < model.size := by
  have within : (model.family (steps + 1) 0) ⊆ List.range model.size := by
    intro member inside
    exact List.mem_range.mpr (tree.descends_of_mem_family tree.nonempty inside).1
  have fits := ((tree.family_nodup tree.nonempty).subperm within).length_le
  rw [List.length_range] at fits
  exact Nat.lt_of_lt_of_le (tree.lt_length_family descends) fits

/-- With as many levels as there are submodels, the family of the root is complete. -/
theorem IsTree.family_perm (tree : model.IsTree) {levels : Nat}
    (enough : model.size ≤ levels) : (model.family levels 0).Perm (List.range model.size) := by
  rw [List.perm_ext_iff_of_nodup (tree.family_nodup tree.nonempty) List.nodup_range]
  intro index
  rw [List.mem_range]
  constructor
  · intro inside
    exact (tree.descends_of_mem_family tree.nonempty inside).1
  · intro inRange
    obtain ⟨steps, descends⟩ := tree.reached index inRange
    exact tree.mem_family descends (Nat.lt_of_lt_of_le (tree.steps_lt_size descends) enough)

/-- The code of a submodel after its points calls the families of the children that are
left. -/
theorem Nested.called_eq {owner base first finish : Nat} {order : List Nat} {code : Assembly}
    (nested : Nested limit select model owner base order first code finish) :
    ∃ enough, ∀ levels, enough ≤ levels → code.called = order.flatMap (model.family levels) := by
  induction nested with
  | @own owner base first built writable =>
      refine ⟨0, fun levels _ => ?_⟩
      rw [Assembly.called_ofPartition]
      rfl
  | @nest owner base child first middle finish order code rest callee later calleeIH laterIH =>
      obtain ⟨calleeLevels, calleeCalled⟩ := calleeIH
      obtain ⟨laterLevels, laterCalled⟩ := laterIH
      refine ⟨max (calleeLevels + 1) laterLevels, ?_⟩
      intro levels enough
      obtain ⟨levels, rfl⟩ : ∃ less, levels = less + 1 := ⟨levels - 1, by omega⟩
      rw [Assembly.called, Assembly.called, submodelCode, Assembly.called,
        calleeCalled levels (by omega), laterCalled (levels + 1) (by omega)]
      rfl

/-- The root and what its code calls are all submodels. -/
theorem Nested.called_perm (tree : model.IsTree) {base first finish : Nat} {code : Assembly}
    (nested : Nested limit select model 0 base (model.nestingOrder 0) first code finish) :
    (0 :: code.called).Perm (List.range model.size) := by
  obtain ⟨enough, called⟩ := nested.called_eq
  have complete : (model.family (max enough model.size + 1) 0).Perm (List.range model.size) :=
    tree.family_perm (Nat.le_succ_of_le (Nat.le_max_right _ _))
  rw [called (max enough model.size) (Nat.le_max_left _ _)]
  exact complete

/-- The code of the root calls every other submodel exactly once. -/
theorem Nested.called_root (tree : model.IsTree) {base first finish : Nat} {code : Assembly}
    (nested : Nested limit select model 0 base (model.nestingOrder 0) first code finish) :
    (0 :: code.called).Nodup ∧ ∀ index, index ∈ 0 :: code.called ↔ index < model.size := by
  have perm := nested.called_perm tree
  exact ⟨perm.nodup_iff.mpr List.nodup_range, fun _ => perm.mem_iff.trans List.mem_range⟩

end Model

end PaintOrder
