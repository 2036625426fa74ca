import PaintOrder.Model.Hierarchy

/-!
# Trees of submodels

In a tree under the first submodel both sides of every link agree, no child is listed twice
and every submodel descends from the root.  A submodel has at most one ancestor at every
distance, so the submodels below different children of one parent are different.
-/

namespace PaintOrder.Model

/-- A submodel is found by following links to parents from another one, so many of them. -/
inductive Descends (model : Model) : (steps ancestor index : Nat) → Prop
  | itself (index : Nat) : Descends model 0 index index
  | child {steps ancestor parent index : Nat}
      (above : Descends model steps ancestor parent)
      (linked : (model.submodel index).parent = some parent) :
      Descends model (steps + 1) ancestor index

namespace Descends

variable {model : Model}

theorem trans {first second ancestor middle index : Nat}
    (upper : Descends model first ancestor middle)
    (lower : Descends model second middle index) :
    Descends model (first + second) ancestor index := by
  induction lower with
  | itself => exact upper
  | child above linked ih => exact .child (ih upper) linked

/-- At every distance there is at most one ancestor. -/
theorem ancestor_unique {steps ancestor other index : Nat}
    (above : Descends model steps ancestor index)
    (otherAbove : Descends model steps other index) : ancestor = other := by
  induction above with
  | itself =>
      cases otherAbove
      rfl
  | child above linked ih =>
      cases otherAbove with
      | child otherParent otherLinked =>
          obtain rfl := Option.some.inj (linked.symm.trans otherLinked)
          exact ih otherParent

/-- Only one distance leads to a submodel without a parent. -/
theorem steps_unique {root first second index : Nat}
    (rootless : (model.submodel root).parent = none)
    (above : Descends model first root index)
    (otherAbove : Descends model second root index) : first = second := by
  induction above generalizing second with
  | itself =>
      cases otherAbove with
      | itself => rfl
      | child _ linked =>
          rw [rootless] at linked
          cases linked
  | child above linked ih =>
      cases otherAbove with
      | itself =>
          rw [rootless] at linked
          cases linked
      | child otherParent otherLinked =>
          obtain rfl := Option.some.inj (linked.symm.trans otherLinked)
          rw [ih rootless otherParent]

theorem exists_child {steps ancestor index : Nat}
    (below : Descends model (steps + 1) ancestor index) :
    ∃ child, (model.submodel child).parent = some ancestor ∧
      Descends model steps child index := by
  induction steps generalizing index with
  | zero =>
      cases below with
      | child above linked =>
          cases above
          exact ⟨index, linked, .itself index⟩
  | succ steps ih =>
      cases below with
      | child above linked =>
          obtain ⟨first, firstLinked, firstAbove⟩ := ih above
          exact ⟨first, firstLinked, .child firstAbove linked⟩

end Descends

/-- The submodels form one tree under the first of them. -/
structure IsTree (model : Model) : Prop where
  nonempty : 0 < model.size
  rootless : (model.submodel 0).parent = none
  /-- Every other submodel is listed by its parent. -/
  listed : ∀ child, 0 < child → child < model.size → ∃ parent, parent < model.size ∧
    (model.submodel child).parent = some parent ∧ child ∈ (model.submodel parent).children
  /-- Every child that is listed has the submodel that lists it as its parent. -/
  acknowledged : ∀ parent child, parent < model.size →
    child ∈ (model.submodel parent).children →
      child < model.size ∧ (model.submodel child).parent = some parent
  distinct : ∀ parent, parent < model.size → (model.submodel parent).children.Nodup
  reached : ∀ index, index < model.size → ∃ steps, model.Descends steps 0 index

variable {model : Model}

theorem lt_size_of_parent {index parent : Nat}
    (linked : (model.submodel index).parent = some parent) : index < model.size := by
  rcases Nat.lt_or_ge index model.size with inside | outside
  · exact inside
  · rw [submodel, Array.getD_eq_getD_getElem?, Array.getElem?_eq_none outside] at linked
    cases linked

theorem IsTree.mem_children (tree : model.IsTree) {index parent : Nat}
    (linked : (model.submodel index).parent = some parent) :
    parent < model.size ∧ index ∈ (model.submodel parent).children := by
  have notRoot : index ≠ 0 := by
    rintro rfl
    rw [tree.rootless] at linked
    cases linked
  obtain ⟨other, otherInRange, otherLinked, listed⟩ :=
    tree.listed index (Nat.pos_of_ne_zero notRoot) (lt_size_of_parent linked)
  obtain rfl := Option.some.inj (otherLinked.symm.trans linked)
  exact ⟨otherInRange, listed⟩

/-- Nothing is below two children of one parent. -/
theorem IsTree.child_unique (tree : model.IsTree) {owner child other index : Nat}
    (inRange : owner < model.size) (linked : (model.submodel child).parent = some owner)
    (otherLinked : (model.submodel other).parent = some owner) {steps otherSteps : Nat}
    (below : model.Descends steps child index)
    (otherBelow : model.Descends otherSteps other index) : child = other := by
  obtain ⟨level, ownerReached⟩ := tree.reached owner inRange
  have childReached := Descends.child ownerReached linked
  have otherReached := Descends.child ownerReached otherLinked
  have sameLevel := (childReached.trans below).steps_unique tree.rootless
    (otherReached.trans otherBelow)
  obtain rfl : steps = otherSteps := by omega
  exact below.ancestor_unique otherBelow

theorem IsTree.not_descends_itself (tree : model.IsTree) {index steps : Nat}
    (inRange : index < model.size) : ¬model.Descends (steps + 1) index index := by
  intro cycle
  obtain ⟨level, reached⟩ := tree.reached index inRange
  have sameLevel := reached.steps_unique tree.rootless (reached.trans cycle)
  omega

end PaintOrder.Model
