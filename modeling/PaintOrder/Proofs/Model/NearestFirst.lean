import PaintOrder.Proofs.Model.Nesting

/-!
# Nearest first is a stable sort

Taking the first of the nearest out of a list, again and again, sorts the list by distance and
leaves equal distances in their order, which is what any stable sort gives.
-/

namespace PaintOrder

/-- Taking the nearest of some children leaves those that stand before and behind it. -/
theorem nearestFirst_of_minOn? {remaining : List (Nat × Int)} {nearest : Nat × Int}
    (found : remaining.minOn? Prod.snd = some nearest) :
    ∃ before after, remaining = before ++ nearest :: after ∧
      (∀ child ∈ before, nearest.2 < child.2) ∧ (∀ child ∈ after, nearest.2 ≤ child.2) ∧
      remaining.erase nearest = before ++ after := by
  obtain ⟨before, after, rfl, farther, notNearer⟩ := exists_split_of_minOn? found
  refine ⟨before, after, rfl, farther, notNearer, ?_⟩
  have absent : nearest ∉ before := fun member => lt_irrefl _ (farther nearest member)
  rw [List.erase_append_right _ absent, List.erase_cons_head]

theorem nearestFirst_pairwise (remaining : List (Nat × Int)) :
    (nearestFirst remaining).Pairwise fun child other => child.2 ≤ other.2 := by
  fun_induction nearestFirst remaining with
  | case1 remaining found => exact .nil
  | case2 remaining nearest found ih =>
      obtain ⟨before, after, rfl, farther, notNearer, left⟩ := nearestFirst_of_minOn? found
      refine List.pairwise_cons.mpr ⟨?_, ih⟩
      intro child member
      rw [(nearestFirst_perm _).mem_iff, left, List.mem_append] at member
      exact member.elim (fun inBefore => (farther child inBefore).le) (notNearer child)

theorem filter_nearestFirst (remaining : List (Nat × Int)) (distance : Int) :
    (nearestFirst remaining).filter (·.2 = distance) = remaining.filter (·.2 = distance) := by
  fun_induction nearestFirst remaining with
  | case1 remaining found =>
      rw [minOn?_eq_none_iff.mp found]
  | case2 remaining nearest found ih =>
      obtain ⟨before, after, rfl, farther, _, left⟩ := nearestFirst_of_minOn? found
      rw [List.filter_cons, ih, left]
      by_cases isNearest : nearest.2 = distance
      · have nothing : before.filter (·.2 = distance) = [] := by
          rw [List.filter_eq_nil_iff]
          intro child member
          have := farther child member
          simp only [decide_eq_true_eq]
          omega
        simp [isNearest, nothing]
      · simp [isNearest]

/-- Taking the nearest first is a stable sort. -/
theorem nearestFirst_eq_mergeSort (remaining : List (Nat × Int)) :
    nearestFirst remaining = remaining.mergeSort fun child other => child.2 ≤ other.2 := by
  apply eq_of_filter_eq (nearestFirst_pairwise remaining)
    (pairwise_mergeSort_key Prod.snd remaining)
  intro distance
  rw [filter_nearestFirst]
  exact (filter_mergeSort distance).symm

namespace Model

/-- How far a child is from the middle of its parent, as a key that orders distances. -/
def childKey (model : Model) (parent child : Nat) : Int :=
  Binary64.orderKey
    ((model.submodel parent).center.distance (model.submodel child).representativePoint)

/-- Children are nested by a stable sort of the distances. -/
theorem nestingOrder_eq_mergeSort (model : Model) (parent : Nat) :
    model.nestingOrder parent = (model.submodel parent).children.mergeSort
      fun child other => model.childKey parent child ≤ model.childKey parent other := by
  unfold nestingOrder
  rw [nearestFirst_eq_mergeSort]
  unfold childKeys
  rw [← List.map_mergeSort (r := fun child other =>
    decide (model.childKey parent child ≤ model.childKey parent other))]
  · rw [List.map_map]
    exact List.map_id _
  · intro child _ other _
    rfl

end Model

end PaintOrder
