import PaintOrder.Proofs.Model.Capacity

/-!
# Which code is accepted

Compiled code passes every check of an execution except one: an execution follows sorts and
calls only so deeply, and the compiler does not count how deeply they nest.  A chain of
submodels without faces shows that there is room in the code for more levels than are
followed.
-/

namespace PaintOrder.Model

open Code

/-- The code of a model is accepted exactly if sorts and calls do not nest too deeply in it,
and otherwise it is refused for that reason.  Short code and the code of a single submodel
do not nest too deeply. -/
theorem decompile_ok_iff_nestingDepth_le {limit : Nat} {options : CompileOptions}
    {model compiled : Model} (succeeds : model.compile limit options = .ok compiled) :
    let depth := model.nestingDepth limit (Splitter.leastCost options.spanWeight) model.size 0
    ((∃ recovered, decompile compiled.data = .ok recovered) ↔ depth ≤ nestingLimit) ∧
    (nestingLimit < depth →
      decompile compiled.data = .error (.format (.tooDeep nestingLimit))) ∧
    (compiled.data.size ≤ 16938 ∨ model.size = 1 → depth ≤ nestingLimit) := by
  intro depth
  obtain ⟨rest, finish, result⟩ := compileWith_eq_ok succeeds
  obtain ⟨accepted, refused⟩ := result.decompile_eq
  have same : rest.depth = depth := result.depth_eq
  rw [same] at accepted refused
  refine ⟨⟨?_, ?_⟩, refused, ?_⟩
  · rintro ⟨recovered, isOk⟩
    by_contra deep
    rw [refused (Nat.lt_of_not_le deep)] at isOk
    cases isOk
  · intro shallow
    obtain ⟨recovered, isOk, _⟩ := accepted shallow
    exact ⟨recovered, isOk⟩
  · rw [← same]
    rintro (short | alone)
    · exact result.depth_le_of_size_le short
    · exact result.depth_le_of_alone alone

section Chain

variable {limit : Nat} {select : Selector}

/-- A root with a chain of submodels below it, all of them without faces. -/
def chain (count : Nat) : Model where
  submodels := (Array.range (count + 1)).map fun index =>
    { parent := if index = 0 then none else some (index - 1)
      children := if index < count then [index + 1] else [] }

theorem chain_size (count : Nat) : (chain count).size = count + 1 := by
  simp [chain, size]

theorem chain_submodel {count index : Nat} (inRange : index ≤ count) :
    (chain count).submodel index =
      { parent := if index = 0 then none else some (index - 1)
        children := if index < count then [index + 1] else [] } := by
  have inside : index < count + 1 := by omega
  simp [chain, submodel, Array.getD_eq_getD_getElem?, inside]

theorem chain_parent {count index : Nat} (inRange : index ≤ count) :
    ((chain count).submodel index).parent =
      if index = 0 then none else some (index - 1) := by
  rw [chain_submodel inRange]

theorem chain_children {count index : Nat} (inRange : index ≤ count) :
    ((chain count).submodel index).children = if index < count then [index + 1] else [] := by
  rw [chain_submodel inRange]

theorem chain_isTree (count : Nat) : (chain count).IsTree := by
  refine ⟨by simp [chain_size], by simp [chain_parent], ?_, ?_, ?_, ?_⟩
  · intro child positive inRange
    rw [chain_size] at inRange ⊢
    refine ⟨child - 1, by omega, ?_, ?_⟩
    · rw [chain_parent (by omega), if_neg (by omega)]
    · rw [chain_children (by omega), if_pos (by omega), List.mem_singleton]
      omega
  · intro parent child inRange listed
    rw [chain_size] at inRange ⊢
    rw [chain_children (by omega)] at listed
    split_ifs at listed with before
    · obtain rfl := List.mem_singleton.mp listed
      refine ⟨by omega, ?_⟩
      rw [chain_parent (by omega), if_neg (by omega), Nat.add_sub_cancel]
    · cases listed
  · intro parent inRange
    rw [chain_size] at inRange
    rw [chain_children (by omega)]
    split_ifs <;> simp
  · intro index inRange
    rw [chain_size] at inRange
    induction index with
    | zero => exact ⟨0, .itself 0⟩
    | succ index ih =>
        obtain ⟨steps, above⟩ := ih (by omega)
        refine ⟨steps + 1, .child above ?_⟩
        rw [chain_parent (by omega), if_neg (by omega), Nat.add_sub_cancel]

theorem chain_nestingOrder {count index : Nat} (inRange : index ≤ count) :
    (chain count).nestingOrder index = if index < count then [index + 1] else [] := by
  have perm := (chain count).nestingOrder_perm index
  rw [chain_children inRange] at perm
  split_ifs at perm ⊢ with before
  · exact List.perm_singleton.mp perm
  · exact List.perm_nil.mp perm

theorem chain_build {count index : Nat} (inRange : index ≤ count) :
    Partition.build limit select ((chain count).submodel index).faces = .ok {} := by
  rw [chain_submodel inRange]
  rfl

/-- Every link of a chain nests two levels deeper. -/
theorem chain_nestingDepth {count index levels : Nat} (inRange : index ≤ count)
    (enough : count - index < levels) :
    (chain count).nestingDepth limit select levels index = 2 * (count - index) := by
  induction levels generalizing index with
  | zero => omega
  | succ levels ih =>
      rw [nestingDepth, partitionOf_eq (chain_build inRange), chain_nestingOrder inRange]
      split_ifs with before
      · rw [nestedDepth, nestedDepth, ih (by omega) (by omega)]
        simp only [Partition.depth, Option.map_none, Option.getD_none]
        omega
      · simp only [nestedDepth, Partition.depth, Option.map_none, Option.getD_none]
        omega

/-- A chain takes 66 bytes for every submodel below the root. -/
theorem chain_codeSize (count : Nat) : (chain count).codeSize limit select = 66 * count + 10 := by
  have sizes : ∀ index ≤ count,
      (chain count).submodelSize limit select index = if index < count then 66 else 10 := by
    intro index inRange
    rw [submodelSize, pointCount, partitionOf_eq (chain_build inRange), chain_children inRange]
    split_ifs <;> rfl
  have linked : (List.range count).map ((chain count).submodelSize limit select) =
      (List.range count).map fun _ => 66 := by
    apply List.map_congr_left
    intro index member
    have before := List.mem_range.mp member
    rw [sizes index (Nat.le_of_lt before), if_pos before]
  rw [codeSize, chain_size, List.range_succ, List.map_append, List.sum_append, linked,
    List.map_const', List.sum_replicate]
  simp [sizes count (Nat.le_refl count), Nat.mul_comm]

theorem chain_compiles {count : Nat} {options : CompileOptions}
    (room : 66 * count + 10 ≤ maxWord) (scratch : 66 * count + 10 ≤ options.scratchSize) :
    ∃ compiled, (chain count).compile limit options = .ok compiled := by
  refine exists_compileWith (chain_isTree count) ?_ ?_
  · intro index inRange
    rw [chain_size] at inRange
    exact ⟨{}, chain_build (Nat.le_of_lt_succ inRange), rfl⟩
  · rw [chain_codeSize]
    exact Nat.le_min.mpr ⟨scratch, room⟩

/-- The longest chain that is accepted nests 512 levels deep. -/
theorem longest_chain_is_accepted :
    ∃ compiled recovered, (chain 256).compile 1 {} = .ok compiled ∧
      decompile compiled.data = .ok recovered := by
  obtain ⟨compiled, succeeds⟩ : ∃ compiled, (chain 256).compile 1 {} = .ok compiled :=
    chain_compiles (by decide) (by decide)
  have shallow : (chain 256).nestingDepth 1 (Splitter.leastCost 6) (chain 256).size 0 ≤
      nestingLimit := by
    rw [chain_size, chain_nestingDepth (Nat.zero_le _) (by decide)]
    decide
  obtain ⟨recovered, accepted⟩ := (decompile_ok_iff_nestingDepth_le succeeds).1.mpr shallow
  exact ⟨compiled, recovered, succeeds, accepted⟩

/-- There is room in the code for a chain that nests 514 levels deep, which is refused. -/
theorem long_chain_is_refused :
    ∃ compiled, (chain 257).compile 1 {} = .ok compiled ∧
      ¬∃ recovered, decompile compiled.data = .ok recovered := by
  obtain ⟨compiled, succeeds⟩ : ∃ compiled, (chain 257).compile 1 {} = .ok compiled :=
    chain_compiles (by decide) (by decide)
  obtain ⟨rest, finish, result⟩ := compileWith_eq_ok succeeds
  refine ⟨compiled, succeeds, ?_⟩
  rintro ⟨recovered, accepted⟩
  have deep : nestingLimit < rest.depth := by
    rw [result.depth_eq, chain_size, chain_nestingDepth (Nat.zero_le _) (by decide)]
    decide
  rw [result.decompile_eq.2 deep] at accepted
  cases accepted

end Chain

end PaintOrder.Model
