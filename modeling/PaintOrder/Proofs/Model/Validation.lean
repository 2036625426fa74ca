import Mathlib.Data.List.Nodup
import PaintOrder.Proofs.Model.Hierarchy
import PaintOrder.Proofs.Outcome

/-!
# Valid hierarchies are trees

A hierarchy passes its check if and only if it is a tree under the first submodel.  The
search behind the check keeps a stack of submodels of which nothing was seen, neither
themselves nor what is below them, and below which there is nothing in common.
-/

namespace PaintOrder.Model

/-- What a search that ends well tells about the submodels that it saw. -/
structure SearchResult (model : Model) (seen : Array Bool) (stack : List Nat)
    (found : Array Bool) : Prop where
  size_eq : found.size = seen.size
  fresh : ∀ index ∈ stack, seen[index]? = some false
  distinct : stack.Nodup
  acknowledged : ∀ parent, seen[parent]? = some false → found[parent]? = some true →
    (∀ child ∈ (model.submodel parent).children, model.acknowledges parent child) ∧
      (model.submodel parent).children.Nodup
  reached : ∀ index, seen[index]? = some false → found[index]? = some true →
    ∃ start ∈ stack, ∃ steps, model.Descends steps start index

/-- What a search found is as good for the submodel it visited before. -/
theorem SearchResult.visit {model : Model} {seen found : Array Bool} {index : Nat}
    {stack : List Nat} {inRange : index < seen.size} (unseen : seen[index] = false)
    (known : ∀ child ∈ (model.submodel index).children, model.acknowledges index child)
    (later : SearchResult model (seen.set index true)
      ((model.submodel index).children.reverse ++ stack) found) :
    SearchResult model seen (index :: stack) found := by
  obtain ⟨childrenDistinct, stackDistinct, _⟩ := List.nodup_append.mp later.distinct
  have stillFresh : ∀ other, (seen.set index true)[other]? = some false →
      other ≠ index ∧ seen[other]? = some false := by
    intro other fresh
    rw [Array.getElem?_set] at fresh
    split_ifs at fresh with same
    · cases fresh
    · exact ⟨Ne.symm same, fresh⟩
  have freshElsewhere : ∀ other, other ≠ index → seen[other]? = some false →
      (seen.set index true)[other]? = some false := by
    intro other different fresh
    rwa [Array.getElem?_set_ne inRange (Ne.symm different)]
  refine ⟨?_, ?_, ?_, ?_, ?_⟩
  · rw [later.size_eq, Array.size_set]
  · intro other member
    rcases List.mem_cons.mp member with rfl | inStack
    · rw [Array.getElem?_eq_getElem inRange, unseen]
    · exact (stillFresh other (later.fresh other (by simp [inStack]))).2
  · refine List.nodup_cons.mpr ⟨?_, stackDistinct⟩
    intro again
    exact (stillFresh index (later.fresh index (by simp [again]))).1 rfl
  · intro parent parentUnseen parentFound
    by_cases same : parent = index
    · subst same
      exact ⟨known, List.nodup_reverse.mp childrenDistinct⟩
    · exact later.acknowledged parent (freshElsewhere parent same parentUnseen) parentFound
  · intro other otherUnseen otherFound
    by_cases same : other = index
    · subst same
      exact ⟨other, List.mem_cons_self, 0, .itself other⟩
    · obtain ⟨start, member, steps, below⟩ :=
        later.reached other (freshElsewhere other same otherUnseen) otherFound
      rcases List.mem_append.mp member with inChildren | inStack
      · have linked := known start (List.mem_reverse.mp inChildren)
        simp only [acknowledges, Bool.and_eq_true, decide_eq_true_eq] at linked
        exact ⟨index, List.mem_cons_self, _,
          (Descends.child (.itself index) linked.2).trans below⟩
      · exact ⟨start, List.mem_cons_of_mem _ inStack, steps, below⟩

/-- A search that ends well has looked at every submodel once. -/
theorem search_eq_ok {model : Model} {seen found : Array Bool} {stack : List Nat}
    (searched : model.search seen stack = .ok found) : SearchResult model seen stack found := by
  fun_induction search model seen stack with
  | case1 seen =>
      cases searched
      refine ⟨rfl, by simp, List.nodup_nil, ?_, ?_⟩
      · intro parent unseen found
        rw [unseen] at found
        cases found
      · intro index unseen found
        rw [unseen] at found
        cases found
  | case2 => cases searched
  | case3 => cases searched
  | case5 => cases searched
  | case4 seen index stack inRange unseen children allKnown ih =>
      have known : ∀ child ∈ children, model.acknowledges index child := by
        intro child member
        simpa using List.find?_eq_none.mp allKnown child member
      exact .visit (by simpa using unseen) known (ih searched)

/-- Nothing is wrong with the link of a child that its parent lists. -/
theorem linkFault?_eq_none_iff {model : Model} {child : Nat} :
    model.linkFault? child = none ↔
      ∃ parent, parent < model.size ∧ (model.submodel child).parent = some parent ∧
        child ∈ (model.submodel parent).children := by
  rw [linkFault?]
  cases linked : (model.submodel child).parent with
  | none => simp
  | some parent =>
      rcases Nat.lt_or_ge parent model.size with inside | outside
      · simp [inside, Nat.not_le_of_lt inside]
      · simp [outside, Nat.not_lt_of_le outside]

/-- No link to a parent is faulty if every submodel but the first has a parent that lists it. -/
theorem faultless_iff {model : Model} :
    (List.range' 1 (model.size - 1)).findSome? model.linkFault? = none ↔
      ∀ child, 0 < child → child < model.size →
        ∃ parent, parent < model.size ∧ (model.submodel child).parent = some parent ∧
          child ∈ (model.submodel parent).children := by
  rw [List.findSome?_eq_none_iff]
  constructor
  · intro faultless child positive inRange
    exact linkFault?_eq_none_iff.mp
      (faultless child (List.mem_range'_1.mpr ⟨by omega, by omega⟩))
  · intro listed child member
    obtain ⟨positive, inRange⟩ := List.mem_range'_1.mp member
    exact linkFault?_eq_none_iff.mpr (listed child (by omega) (by omega))

theorem validateHierarchy_eq_ok {model : Model} (valid : model.validateHierarchy = .ok ()) :
    0 < model.size ∧ (model.submodel 0).parent = none ∧
      (List.range' 1 (model.size - 1)).findSome? model.linkFault? = none ∧
      ∃ seen, model.search (Array.replicate model.size false) [0] = .ok seen ∧
        seen.findIdx? (!·) = none := by
  rw [validateHierarchy] at valid
  by_cases empty : model.submodels.isEmpty
  · simp [empty, bind_eq_ok, throw_ne_ok] at valid
  · have nonempty : 0 < model.size := by
      simpa [size, Nat.pos_iff_ne_zero] using empty
    cases hasParent : (model.submodel 0).parent with
    | some parent => simp [empty, hasParent, bind_eq_ok, throw_ne_ok] at valid
    | none =>
        cases faulty : (List.range' 1 (model.size - 1)).findSome? model.linkFault? with
        | some fault => simp [empty, hasParent, faulty, bind_eq_ok, throw_ne_ok] at valid
        | none =>
            simp only [empty, hasParent, faulty] at valid
            obtain ⟨seen, searched, valid⟩ := bind_eq_ok.mp valid
            refine ⟨nonempty, rfl, rfl, seen, searched, ?_⟩
            cases missed : seen.findIdx? (!·) with
            | none => rfl
            | some child => simp [missed, throw_ne_ok] at valid

/-- The steps of the check at which a hierarchy can be refused. -/
theorem validateHierarchy_eq_error {model : Model} {cause : StructuralError}
    (refused : model.validateHierarchy = .error cause) :
    (model.size = 0 ∧ cause = .emptyHierarchy) ∨
      ((∃ parent, (model.submodel 0).parent = some parent) ∧ cause = .rootHasParent) ∨
      (List.range' 1 (model.size - 1)).findSome? model.linkFault? = some cause ∨
      (0 < model.size ∧ (model.submodel 0).parent = none ∧
        (List.range' 1 (model.size - 1)).findSome? model.linkFault? = none ∧
        (model.search (Array.replicate model.size false) [0] = .error cause ∨
          ∃ seen child, model.search (Array.replicate model.size false) [0] = .ok seen ∧
            seen.findIdx? (!·) = some child ∧ cause = .orphan child)) := by
  rw [validateHierarchy] at refused
  by_cases empty : model.submodels.isEmpty
  · simp only [empty, if_true] at refused
    cases refused
    exact .inl ⟨by simpa [size] using empty, rfl⟩
  have nonempty : 0 < model.size := by
    simpa [size, Nat.pos_iff_ne_zero] using empty
  cases hasParent : (model.submodel 0).parent with
  | some parent =>
      simp only [empty, hasParent] at refused
      cases refused
      exact .inr (.inl ⟨⟨parent, rfl⟩, rfl⟩)
  | none =>
      cases faulty : (List.range' 1 (model.size - 1)).findSome? model.linkFault? with
      | some fault =>
          simp only [empty, hasParent, faulty] at refused
          cases refused
          exact .inr (.inr (.inl rfl))
      | none =>
          simp only [empty, hasParent, faulty] at refused
          refine .inr (.inr (.inr ⟨nonempty, rfl, rfl, ?_⟩))
          rcases bind_eq_error.mp refused with failed | ⟨seen, searched, unfinished⟩
          · exact .inl failed
          · cases missed : seen.findIdx? (!·) with
            | none =>
                rw [missed] at unfinished
                cases unfinished
            | some child =>
                rw [missed] at unfinished
                cases unfinished
                exact .inr ⟨seen, child, searched, missed, rfl⟩

/-- A hierarchy that passes its check is a tree. -/
theorem isTree_of_validateHierarchy {model : Model}
    (valid : model.validateHierarchy = .ok ()) : model.IsTree := by
  obtain ⟨nonempty, rootless, faultless, seen, searched, complete⟩ :=
    validateHierarchy_eq_ok valid
  have result := search_eq_ok searched
  have allFresh : ∀ index, index < model.size →
      (Array.replicate model.size false)[index]? = some false := by
    intro index inRange
    simp [inRange]
  have allFound : ∀ index, index < model.size → seen[index]? = some true := by
    intro index inRange
    have inSeen : index < seen.size := by
      rw [result.size_eq, Array.size_replicate]
      exact inRange
    rw [Array.getElem?_eq_getElem inSeen]
    have := Array.findIdx?_eq_none_iff.mp complete _ (Array.getElem_mem inSeen)
    simpa using this
  refine ⟨nonempty, rootless, faultless_iff.mp faultless, ?_, ?_, ?_⟩
  · intro parent child inRange listed
    have known := (result.acknowledged parent (allFresh parent inRange)
      (allFound parent inRange)).1 child listed
    simpa [acknowledges] using known
  · intro parent inRange
    exact (result.acknowledged parent (allFresh parent inRange) (allFound parent inRange)).2
  · intro index inRange
    obtain ⟨start, isRoot, steps, below⟩ :=
      result.reached index (allFresh index inRange) (allFound index inRange)
    obtain rfl := List.mem_singleton.mp isRoot
    exact ⟨steps, below⟩

section Trees

variable {model : Model}

/-- Of the submodels on a stack and everything below them nothing was seen, and no two of
them have anything below in common. -/
structure Pending (model : Model) (seen : Array Bool) (stack : List Nat) : Prop where
  inside : ∀ start ∈ stack, start < model.size
  fresh : ∀ start ∈ stack, ∀ steps index, model.Descends steps start index →
    seen[index]? = some false
  apart : stack.Pairwise fun first second => ∀ steps otherSteps index,
    model.Descends steps first index → ¬model.Descends otherSteps second index

/-- The next submodel on a stack is replaced by its children. -/
theorem Pending.visit (tree : model.IsTree) {seen : Array Bool} {index : Nat}
    {stack : List Nat} (pending : Pending model seen (index :: stack))
    (inRange : index < seen.size) :
    Pending model (seen.set index true)
      ((model.submodel index).children.reverse ++ stack) := by
  have indexInside := pending.inside index List.mem_cons_self
  obtain ⟨indexApart, stackApart⟩ := List.pairwise_cons.mp pending.apart
  have known : ∀ child ∈ (model.submodel index).children.reverse,
      child < model.size ∧ (model.submodel child).parent = some index := by
    intro child member
    exact tree.acknowledged index child indexInside (List.mem_reverse.mp member)
  have stillFresh : ∀ other, other ≠ index → seen[other]? = some false →
      (seen.set index true)[other]? = some false := by
    intro other different fresh
    rwa [Array.getElem?_set_ne inRange (Ne.symm different)]
  refine ⟨?_, ?_, ?_⟩
  · intro start member
    rcases List.mem_append.mp member with isChild | inStack
    · exact (known start isChild).1
    · exact pending.inside start (List.mem_cons_of_mem _ inStack)
  · intro start member steps other below
    rcases List.mem_append.mp member with isChild | inStack
    · have further := (Descends.child (.itself index) (known start isChild).2).trans below
      apply stillFresh
      · rintro rfl
        rw [Nat.zero_add, Nat.add_comm] at further
        exact tree.not_descends_itself indexInside further
      · exact pending.fresh index List.mem_cons_self _ _ further
    · apply stillFresh
      · rintro rfl
        exact indexApart start inStack 0 steps other (.itself other) below
      · exact pending.fresh start (List.mem_cons_of_mem _ inStack) _ _ below
  · refine List.pairwise_append.mpr ⟨?_, stackApart, ?_⟩
    · have distinct := List.nodup_reverse.mpr (tree.distinct index indexInside)
      refine List.Pairwise.imp_of_mem ?_ distinct
      intro child other member otherMember different steps otherSteps below inCommon otherBelow
      exact different (tree.child_unique indexInside (known child member).2
        (known other otherMember).2 inCommon otherBelow)
    · intro child member other inStack steps otherSteps below inCommon
      have further := (Descends.child (.itself index) (known child member).2).trans inCommon
      exact indexApart other inStack _ otherSteps below further

/-- A search in a tree sees everything below its stack. -/
theorem search_of_pending (tree : model.IsTree) {seen : Array Bool} {stack : List Nat}
    (pending : Pending model seen stack) :
    ∃ found : Array Bool, model.search seen stack = .ok found ∧ found.size = seen.size ∧
      (∀ index : Nat, seen[index]? = some true → found[index]? = some true) ∧
      ∀ start ∈ stack, ∀ steps index, model.Descends steps start index →
        found[index]? = some true := by
  fun_induction search model seen stack with
  | case1 seen => exact ⟨seen, rfl, rfl, fun _ known => known, by simp⟩
  | case2 seen index stack inRange already =>
      have fresh := pending.fresh index List.mem_cons_self 0 index (.itself index)
      rw [Array.getElem?_eq_getElem inRange, already] at fresh
      cases fresh
  | case3 seen index stack inRange unseen children child unknown =>
      have isChild := List.mem_of_find?_eq_some unknown
      have notAcknowledged := List.find?_some unknown
      have known := tree.acknowledged index child
        (pending.inside index List.mem_cons_self) isChild
      simp [acknowledges, known] at notAcknowledged
  | case4 seen index stack inRange unseen children allKnown ih =>
      obtain ⟨found, searched, size, kept, below⟩ := ih (pending.visit tree inRange)
      have here : found[index]? = some true := by
        apply kept
        rw [Array.getElem?_set, if_pos rfl]
      refine ⟨found, searched, ?_, ?_, ?_⟩
      · rw [size, Array.size_set]
      · intro other known
        apply kept
        rw [Array.getElem?_set]
        split_ifs
        · rfl
        · exact known
      · intro start member steps other descends
        rcases List.mem_cons.mp member with rfl | inStack
        · cases steps with
          | zero =>
              cases descends
              exact here
          | succ steps =>
              obtain ⟨child, linked, childDescends⟩ := descends.exists_child
              obtain ⟨_, listed⟩ := tree.mem_children linked
              exact below child (by simp [children, listed]) steps other childDescends
        · exact below start (by simp [inStack]) steps other descends
  | case5 seen index stack outside =>
      have fresh := pending.fresh index List.mem_cons_self 0 index (.itself index)
      rw [Array.getElem?_eq_none (Nat.le_of_not_lt outside)] at fresh
      cases fresh

theorem validateHierarchy_of_isTree (tree : model.IsTree) :
    model.validateHierarchy = .ok () := by
  have notEmpty : model.submodels.isEmpty = false := by
    simpa [size, Nat.pos_iff_ne_zero] using tree.nonempty
  have faultless : (List.range' 1 (model.size - 1)).findSome? model.linkFault? = none :=
    faultless_iff.mpr tree.listed
  have allFresh : ∀ index, index < model.size →
      (Array.replicate model.size false)[index]? = some false := by
    intro index inRange
    simp [inRange]
  have pending : Pending model (Array.replicate model.size false) [0] := by
    refine ⟨by simp [tree.nonempty], ?_, List.pairwise_singleton _ _⟩
    intro start member steps index below
    obtain rfl := List.mem_singleton.mp member
    apply allFresh
    cases below with
    | itself => exact tree.nonempty
    | child _ linked => exact lt_size_of_parent linked
  obtain ⟨found, searched, size, _, below⟩ := search_of_pending tree pending
  have complete : found.findIdx? (!·) = none := by
    rw [Array.findIdx?_eq_none_iff]
    intro seen member
    obtain ⟨index, inFound, rfl⟩ := Array.mem_iff_getElem.mp member
    obtain ⟨steps, reached⟩ := tree.reached index (by simpa [size] using inFound)
    have isSeen := below 0 List.mem_cons_self steps index reached
    rw [Array.getElem?_eq_getElem inFound] at isSeen
    simp [Option.some.inj isSeen]
  simp only [validateHierarchy, notEmpty, tree.rootless, faultless]
  change (model.search (Array.replicate model.size false) [0] >>= _) = _
  rw [searched, ok_bind, complete]
  rfl

end Trees

end PaintOrder.Model
