import Mathlib.Data.List.Perm.Basic
import PaintOrder.Model.Nesting
import PaintOrder.Proofs.Sorting

/-!
# The order of nested children

Taking the nearest child first only changes the order of the children.
-/

namespace PaintOrder

/-- Nothing is lost and nothing is taken twice. -/
theorem nearestFirst_perm (remaining : List (Nat × Int)) :
    (nearestFirst remaining).Perm remaining := by
  fun_induction nearestFirst remaining with
  | case1 remaining found =>
      have empty : remaining = [] := minOn?_eq_none_iff.mp found
      rw [empty]
  | case2 remaining nearest found ih =>
      have member : nearest ∈ remaining := List.minOn?_mem found
      exact (ih.cons nearest).trans (List.perm_cons_erase member).symm

theorem Model.nestingOrder_perm (model : Model) (parent : Nat) :
    (model.nestingOrder parent).Perm (model.submodel parent).children := by
  have keyed := (nearestFirst_perm (model.childKeys parent)).map Prod.fst
  have keys : (model.childKeys parent).map Prod.fst = (model.submodel parent).children := by
    simp [childKeys, List.map_map, Function.comp_def]
  rw [keys] at keyed
  exact keyed

end PaintOrder
