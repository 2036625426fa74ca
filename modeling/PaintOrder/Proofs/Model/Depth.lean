import PaintOrder.Proofs.Model.Descendants
import PaintOrder.Proofs.Model.Emission

/-!
# How deeply models nest

A child costs a sort and a call, each with a stop, and its own points and stop, which is 66
bytes for two levels; the children behind it nest one level deeper for the same price.  So
code nests at most one level for every 33 bytes, however calls and splits are mixed.
-/

namespace PaintOrder.Model

open Code

variable {limit : Nat} {select : Selector} {model : Model}

/-- Every level takes 33 bytes. -/
theorem Nested.le_length {owner base first finish : Nat} {order : List Nat} {code : Assembly}
    (nested : Nested limit select model owner base order first code finish)
    (fits : code.Fits) : 33 * code.depth + 2 ≤ code.code.length := by
  induction nested with
  | own built writable =>
      have length := Assembly.le_length_ofPartition built fits
      omega
  | nest callee later calleeIH laterIH =>
      obtain ⟨_, ⟨_, _, _, _, calleeFits⟩, laterFits⟩ := fits
      have calleeLength := calleeIH calleeFits
      have laterLength := laterIH laterFits
      simp only [submodelCode, Assembly.depth, Assembly.code, List.length_append,
        length_sortBytes, length_callBytes, length_stopBytes, length_pointsBytes, sortSize,
        callSize, stopSize, pointsSize, pointsHeaderSize]
      omega

theorem IsTree.nestingOrder_eq_nil (tree : model.IsTree) (alone : model.size = 1) :
    model.nestingOrder 0 = [] := by
  apply List.eq_nil_iff_forall_not_mem.mpr
  intro child member
  have listed := (model.nestingOrder_perm 0).mem_iff.mp member
  obtain ⟨inRange, linked⟩ := tree.acknowledged 0 child tree.nonempty listed
  obtain rfl : child = 0 := by omega
  rw [tree.rootless] at linked
  cases linked

namespace Compiled

variable {compiled : Model} {rest : Assembly} {finish : Nat}

theorem length_eq (result : Compiled limit select model compiled rest finish) :
    compiled.data.size =
      pointsSize (model.tableOf limit select 0 0).positions.toList.length +
        rest.code.length := by
  rw [← Array.length_toList, result.data_eq, submodelCode, Assembly.code, List.length_append,
    length_pointsBytes]

theorem depth_le_of_size_le (result : Compiled limit select model compiled rest finish)
    (short : compiled.data.size ≤ 16938) : rest.depth ≤ nestingLimit := by
  have length := result.nested.le_length result.fits.2.2
  have size := result.length_eq
  rw [pointsSize, pointsHeaderSize] at size
  rw [nestingLimit]
  omega

theorem depth_le_of_alone (result : Compiled limit select model compiled rest finish)
    (alone : model.size = 1) : rest.depth ≤ nestingLimit := by
  have nested := result.nested
  have fits := result.fits.2.2
  have size := result.length_eq
  have large := result.size_le
  rw [result.tree.nestingOrder_eq_nil alone] at nested
  cases nested with
  | own built writable =>
      have length := Assembly.le_length_ofPartition built fits
      rw [maxWord] at large
      rw [nestingLimit]
      omega

end Compiled

end PaintOrder.Model
