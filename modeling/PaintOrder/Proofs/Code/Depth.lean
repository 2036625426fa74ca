import PaintOrder.Proofs.Code.Trees
import PaintOrder.Proofs.Partition.Completeness

/-!
# What nesting costs

Every split of a partition nests one level deeper and is paid for with a sort, a stop and at
least one more leaf.  No leaf is empty, so the code of a partition is long if it nests
deeply, and code that fits into the range of a jump does not nest too deeply.
-/

namespace PaintOrder.Code.Assembly

variable {table : VertexTable}

theorem ofFaces_depth (table : VertexTable) (faces : List Face) :
    (ofFaces table faces).depth = 0 := by
  induction faces with
  | nil => rfl
  | cons face rest ih => exact ih

theorem ofTree_depth (table : VertexTable) (tree : Tree) :
    (ofTree table tree).depth + 1 = tree.depth := by
  induction tree with
  | leaf faces => rw [ofTree, ofFaces_depth, Tree.depth]
  | split plane front back frontIH backIH =>
      rw [ofTree, depth, Tree.depth, ← frontIH, ← backIH]
      omega

theorem ofPartition_depth (table : VertexTable) (partition : Partition) :
    (ofPartition table partition).depth = partition.depth - 1 := by
  rw [ofPartition, Partition.depth]
  cases partition.root? with
  | none => rfl
  | some tree =>
      have := ofTree_depth table tree
      simp only [Option.map_some, Option.getD_some]
      omega

/-- The smallest leaf is one triangle and a stop. -/
theorem le_length_ofFaces {faces : List Face} (fits : (ofFaces table faces).Fits)
    (nonempty : faces ≠ []) : 38 ≤ (ofFaces table faces).code.length := by
  cases faces with
  | nil => exact absurd rfl nonempty
  | cons face rest =>
      obtain ⟨proper, _⟩ := fits
      have corners := proper.atLeast
      have polygon : 36 ≤ (Emission.polygonOf table face).bytes.length := by
        rw [proper.length_bytes, polygonSize, polygonHeaderSize, indexListLength]
        split_ifs <;> omega
      rw [ofFaces_code, List.flatMap_cons]
      simp only [List.length_append, length_stopBytes, stopSize]
      omega

/-- Every level of splits takes 72 bytes. -/
theorem le_length_ofTree {tree : Tree} (fits : (ofTree table tree).Fits)
    (nonempty : ∀ leaf ∈ tree.leaves, leaf ≠ []) :
    72 * (ofTree table tree).depth + 38 ≤ (ofTree table tree).code.length := by
  induction tree with
  | leaf faces =>
      rw [ofTree, ofFaces_depth]
      exact le_length_ofFaces fits (nonempty faces (by simp [Tree.leaves]))
  | split plane front back frontIH backIH =>
      obtain ⟨_, frontFits, backFits⟩ := fits
      have frontLength := frontIH frontFits
        (fun leaf member => nonempty leaf (List.mem_append_left _ member))
      have backLength := backIH backFits
        (fun leaf member => nonempty leaf (List.mem_append_right _ member))
      simp only [ofTree, depth, code, List.length_append, length_sortBytes, length_stopBytes,
        sortSize, stopSize]
      omega

theorem le_length_ofPartition {limit : Nat} {select : Selector} {faces : List Face}
    {partition : Partition} (built : Partition.build limit select faces = .ok partition)
    (fits : (ofPartition table partition).Fits) :
    72 * (ofPartition table partition).depth + 2 ≤
      (ofPartition table partition).code.length := by
  rw [ofPartition] at fits ⊢
  rcases Partition.build_eq_ok built with
    ⟨_, unrooted⟩ | ⟨nonempty, _, tree, treeBuilt, rooted⟩
  · rw [unrooted]
    simp [depth, code, stopSize]
  · rw [rooted] at fits ⊢
    have accounted := Tree.accounts_of_build nonempty treeBuilt
    have length := le_length_ofTree fits accounted.leaf_ne_nil
    simp only
    omega

end PaintOrder.Code.Assembly
