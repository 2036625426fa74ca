import Mathlib.Data.List.Sort
import Mathlib.Order.Basic

/-!
# The least of a list, and lists sorted by a key

Picking the least by a key takes the first of the least.  A sorted list is determined by its
elements of every key, and a stable sort keeps the order among them.
-/

namespace PaintOrder

section Keys


variable {α κ : Type} [LinearOrder κ] {key : α → κ} {elements others : List α}

/-- Only an empty list has no least. -/
theorem minOn?_eq_none_iff : elements.minOn? key = none ↔ elements = [] := by
  rw [← Option.isSome_eq_false_iff.trans Option.isNone_iff_eq_none, ← Bool.not_eq_true,
    List.isSome_minOn?_iff, not_not]

/-- Nothing before the first of the least is as little, and nothing behind it is less. -/
theorem exists_split_of_minOn? {least : α} (found : elements.minOn? key = some least) :
    ∃ before after, elements = before ++ least :: after ∧
      (∀ element ∈ before, key least < key element) ∧
      ∀ element ∈ after, key least ≤ key element := by
  induction elements generalizing least with
  | nil => cases found
  | cons first rest ih =>
      rw [List.minOn?_cons, Option.some.injEq] at found
      cases leastOfRest : rest.minOn? key with
      | none =>
          obtain rfl : rest = [] := minOn?_eq_none_iff.mp leastOfRest
          obtain rfl : first = least := by simpa using found
          exact ⟨[], [], rfl, by simp, by simp⟩
      | some other =>
          obtain ⟨before, after, rfl, greater, atLeast⟩ := ih leastOfRest
          rw [leastOfRest, Option.elim_some, minOn] at found
          split_ifs at found with firstIsLess
          · subst found
            refine ⟨[], before ++ other :: after, rfl, by simp, ?_⟩
            intro element member
            rcases List.mem_append.mp member with inBefore | behind
            · exact firstIsLess.trans (greater element inBefore).le
            · rcases List.mem_cons.mp behind with rfl | inAfter
              · exact firstIsLess
              · exact firstIsLess.trans (atLeast element inAfter)
          · subst found
            refine ⟨first :: before, after, rfl, ?_, atLeast⟩
            rintro element (_ | ⟨_, inBefore⟩)
            · exact lt_of_not_ge firstIsLess
            · exact greater element inBefore

/-- Sorted lists with the same elements of every key, in the same order, are the same. -/
theorem eq_of_filter_eq (sorted : elements.Pairwise fun left right => key left ≤ key right)
    (othersSorted : others.Pairwise fun left right => key left ≤ key right)
    (same : ∀ value, elements.filter (key · = value) = others.filter (key · = value)) :
    elements = others := by
  induction elements generalizing others with
  | nil =>
      cases others with
      | nil => rfl
      | cons first rest => simpa using same (key first)
  | cons first rest ih =>
      cases others with
      | nil => simpa using same (key first)
      | cons other others =>
          rw [List.pairwise_cons] at sorted othersSorted
          have firstInOthers : first ∈ (other :: others).filter (key · = key first) := by
            simp [← same (key first)]
          have otherInFirst : other ∈ (first :: rest).filter (key · = key other) := by
            simp [same (key other)]
          have sameKey : key first = key other := by
            apply le_antisymm
            · rcases List.mem_cons.mp (List.mem_of_mem_filter otherInFirst) with rfl | later
              · rfl
              · exact sorted.1 other later
            · rcases List.mem_cons.mp (List.mem_of_mem_filter firstInOthers) with rfl | later
              · rfl
              · exact othersSorted.1 first later
          obtain ⟨rfl, _⟩ : first = other ∧ _ := by simpa [sameKey] using same (key other)
          congr 1
          apply ih sorted.2 othersSorted.2
          intro value
          have whole := same value
          by_cases isKey : key first = value
          · simpa [isKey] using whole
          · simpa [isKey] using whole

theorem le_key_trans (key : α → κ) (left middle right : α) :
    decide (key left ≤ key middle) = true → decide (key middle ≤ key right) = true →
      decide (key left ≤ key right) = true := by
  simp only [decide_eq_true_eq]
  exact le_trans

theorem le_key_total (key : α → κ) (left right : α) :
    (decide (key left ≤ key right) || decide (key right ≤ key left)) = true := by
  simpa using le_total (key left) (key right)

/-- Sorting keeps the order of elements with one key. -/
theorem filter_mergeSort (value : κ) :
    (elements.mergeSort fun left right => key left ≤ key right).filter (key · = value) =
      elements.filter (key · = value) := by
  have alike : (elements.filter (key · = value)).Pairwise fun left right =>
      decide (key left ≤ key right) = true := by
    apply List.Pairwise.imp_of_mem (R := fun _ _ => True)
    · intro left right isLeft isRight _
      have leftKey := (List.mem_filter.mp isLeft).2
      have rightKey := (List.mem_filter.mp isRight).2
      simp only [decide_eq_true_eq] at leftKey rightKey ⊢
      exact (leftKey.trans rightKey.symm).le
    · exact List.pairwise_of_forall fun _ _ => trivial
  have kept : (elements.filter (key · = value)).Sublist
      (elements.mergeSort fun left right => key left ≤ key right) :=
    List.sublist_mergeSort (le_key_trans key) (le_key_total key) alike List.filter_sublist
  have sublist := kept.filter fun element => decide (key element = value)
  simp only [List.filter_filter, Bool.and_self] at sublist
  exact (sublist.eq_of_length
    ((List.mergeSort_perm elements _).filter _).symm.length_eq).symm

theorem pairwise_mergeSort_key (key : α → κ) (elements : List α) :
    (elements.mergeSort fun left right => key left ≤ key right).Pairwise
      fun left right => key left ≤ key right := by
  have sorted : (elements.mergeSort fun left right => key left ≤ key right).Pairwise
      fun left right => decide (key left ≤ key right) = true :=
    List.pairwise_mergeSort (le_key_trans key) (le_key_total key) elements
  simpa using sorted

end Keys

end PaintOrder
