import PaintOrder.Proofs.Model.Validation

/-!
# What the check of a hierarchy finds

The check accepts a hierarchy exactly if the first submodel is the only one without a parent,
the links to parents lead from every other submodel to the first one, and every submodel lists
its children and nothing else, each once.  A hierarchy that is refused has the fault that is
named.  The search behind the check keeps its accounts balanced: what waits on the stack and
what was seen make up all arrivals at a submodel.
-/

namespace PaintOrder.Model

variable {model : Model} {seen : Array Bool} {stack : List Nat}

/-- The faults for which a hierarchy is refused, as properties of the hierarchy. -/
def HasFault (model : Model) : StructuralError → Prop
  | .emptyHierarchy => model.size = 0
  | .rootHasParent => ∃ parent, (model.submodel 0).parent = some parent
  | .orphan child => child < model.size ∧ ∀ steps, ¬model.Descends steps 0 child
  | .brokenLink parent child =>
      ¬(child ∈ (model.submodel parent).children ↔
        (model.submodel child).parent = some parent)
  | .cycle index => ∃ parent, 2 ≤ (model.submodel parent).children.count index
  | _ => False

/-- How often a search from the root has arrived at a submodel: once at the root, and at any
other submodel for every time that its parent lists it, once the parent was seen. -/
def arrivals (model : Model) (seen : Array Bool) (index : Nat) : Nat :=
  match (model.submodel index).parent with
  | none => if index = 0 then 1 else 0
  | some parent =>
      if seen[parent]? = some true then (model.submodel parent).children.count index else 0

/-- The state of a search that started at the root.  Every arrival at a submodel is on the
stack or was seen. -/
structure Balanced (model : Model) (seen : Array Bool) (stack : List Nat) : Prop where
  size_eq : seen.size = model.size
  inside : ∀ index ∈ stack, index < model.size
  balance : ∀ index, stack.count index + (if seen[index]? = some true then 1 else 0) =
    model.arrivals seen index

theorem balanced_start (nonempty : 0 < model.size)
    (rootless : (model.submodel 0).parent = none) :
    Balanced model (Array.replicate model.size false) [0] := by
  have unseen : ∀ index : Nat, (Array.replicate model.size false)[index]? ≠ some true := by
    intro index
    rw [Array.getElem?_replicate]
    split_ifs <;> simp
  refine ⟨Array.size_replicate, by simpa using nonempty, ?_⟩
  intro index
  rw [if_neg (unseen index), Nat.add_zero, arrivals]
  by_cases isRoot : index = 0
  · subst isRoot
    rw [rootless]
    rfl
  · rw [List.count_singleton, if_neg (by simpa using Ne.symm isRoot)]
    cases (model.submodel index).parent with
    | none => exact (if_neg isRoot).symm
    | some parent => exact (if_neg (unseen parent)).symm

/-- Visiting a submodel moves it from the stack to those seen and adds the arrivals at its
children. -/
theorem Balanced.visit {index : Nat} (balanced : Balanced model seen (index :: stack))
    {inRange : index < seen.size} (unseen : seen[index] = false)
    (known : ∀ child ∈ (model.submodel index).children, model.acknowledges index child) :
    Balanced model (seen.set index true)
      ((model.submodel index).children.reverse ++ stack) := by
  have linked : ∀ child ∈ (model.submodel index).children,
      child < model.size ∧ (model.submodel child).parent = some index := by
    intro child member
    simpa [acknowledges] using known child member
  have notSeen : seen[index]? ≠ some true := by
    simp [Array.getElem?_eq_getElem inRange, unseen]
  have seenNow : ∀ other : Nat, (seen.set index true)[other]? = some true ↔
      other = index ∨ seen[other]? = some true := by
    intro other
    rw [Array.getElem?_set inRange]
    split_ifs with same
    · simp [same]
    · simp [Ne.symm same]
  have newArrivals : ∀ other, model.arrivals (seen.set index true) other =
      model.arrivals seen other + (model.submodel index).children.count other := by
    intro other
    rw [arrivals, arrivals]
    by_cases isChild : (model.submodel other).parent = some index
    · rw [isChild]
      simp [notSeen]
    · have notListed : (model.submodel index).children.count other = 0 :=
        List.count_eq_zero.mpr fun member => isChild (linked other member).2
      rw [notListed, Nat.add_zero]
      cases linkedTo : (model.submodel other).parent with
      | none => rfl
      | some parent =>
          have different : parent ≠ index := by
            rintro rfl
            exact isChild linkedTo
          simp [seenNow, different]
  refine ⟨by rw [Array.size_set, balanced.size_eq], ?_, ?_⟩
  · intro other member
    rcases List.mem_append.mp member with isChild | inStack
    · exact (linked other (List.mem_reverse.mp isChild)).1
    · exact balanced.inside other (List.mem_cons_of_mem _ inStack)
  · intro other
    have before := balanced.balance other
    rw [newArrivals, ← before, List.count_append, List.count_reverse, List.count_cons]
    by_cases same : other = index
    · subst same
      simp [notSeen]
      omega
    · simp [Ne.symm same]
      omega

/-- A search from the root ends with its accounts balanced, or at a fault. -/
theorem Balanced.search (balanced : Balanced model seen stack) :
    (∃ found, model.search seen stack = .ok found ∧ Balanced model found []) ∨
      ∃ cause, model.search seen stack = .error cause ∧ model.HasFault cause := by
  fun_induction Model.search model seen stack with
  | case1 seen => exact .inl ⟨seen, rfl, balanced⟩
  | case2 seen index stack inRange already =>
      -- The second arrival is one too many for the root, so a parent lists it twice.
      have twice : 2 ≤ model.arrivals seen index := by
        rw [← balanced.balance index, Array.getElem?_eq_getElem inRange, already]
        simp
      rw [arrivals] at twice
      refine .inr ⟨_, rfl, ?_⟩
      cases linked : (model.submodel index).parent with
      | none =>
          simp only [linked] at twice
          split_ifs at twice
          all_goals omega
      | some parent =>
          simp only [linked] at twice
          split_ifs at twice
          · exact ⟨parent, twice⟩
          · omega
  | case3 seen index stack inRange unseen children child unknown =>
      have listed := List.mem_of_find?_eq_some unknown
      have notAcknowledged := List.find?_some unknown
      refine .inr ⟨_, rfl, ?_⟩
      intro agree
      have linked := agree.mp listed
      simp [acknowledges, linked, lt_size_of_parent linked] at notAcknowledged
  | case4 seen index stack inRange unseen children allKnown ih =>
      have known : ∀ child ∈ children, model.acknowledges index child := by
        intro child member
        simpa using List.find?_eq_none.mp allKnown child member
      exact ih (balanced.visit (by simpa using unseen) known)
  | case5 seen index stack outside =>
      have inside := balanced.inside index List.mem_cons_self
      rw [← balanced.size_eq] at inside
      exact absurd inside outside

/-- What the links lead up to the root from is seen, if every parent lists its children. -/
theorem Balanced.seen_of_descends {found : Array Bool} (balanced : Balanced model found [])
    (rootless : (model.submodel 0).parent = none)
    (listed : ∀ child parent, (model.submodel child).parent = some parent →
      child ∈ (model.submodel parent).children)
    {steps index : Nat} (below : model.Descends steps 0 index) : found[index]? = some true := by
  have arrived : ∀ other, 0 < model.arrivals found other → found[other]? = some true := by
    intro other positive
    rw [← balanced.balance other] at positive
    by_contra unseen
    simp [unseen] at positive
  apply arrived
  induction steps generalizing index with
  | zero =>
      cases below
      simp [arrivals, rootless]
  | succ steps ih =>
      cases below with
      | child above linked =>
          rw [arrivals, linked]
          simp only [arrived _ (ih above), if_true]
          exact List.count_pos_iff.mpr (listed index _ linked)

/-- The fault in a link to a parent is there. -/
theorem hasFault_of_linkFault? {child : Nat} {fault : StructuralError} (positive : 0 < child)
    (inRange : child < model.size) (faulty : model.linkFault? child = some fault) :
    model.HasFault fault := by
  rw [linkFault?] at faulty
  cases linked : (model.submodel child).parent with
  | none =>
      simp only [linked] at faulty
      cases faulty
      refine ⟨inRange, ?_⟩
      rintro steps (_ | ⟨_, otherLinked⟩)
      · omega
      · rw [linked] at otherLinked
        cases otherLinked
  | some parent =>
      simp only [linked] at faulty
      split_ifs at faulty with outside listed
      · cases faulty
        refine ⟨inRange, ?_⟩
        rintro steps (_ | ⟨above, otherLinked⟩)
        · omega
        · -- Nothing leads on from a parent that does not exist.
          obtain rfl := Option.some.inj (linked.symm.trans otherLinked)
          rcases above with _ | ⟨_, further⟩
          · omega
          · exact absurd (lt_size_of_parent further) (Nat.not_lt_of_le outside)
      · cases faulty
        intro agree
        exact listed (List.contains_iff_mem.mpr (agree.mpr linked))

/-- A hierarchy that is refused has the fault that is named. -/
theorem hasFault_of_validateHierarchy {cause : StructuralError}
    (refused : model.validateHierarchy = .error cause) : model.HasFault cause := by
  rcases validateHierarchy_eq_error refused with
    ⟨empty, rfl⟩ | ⟨hasParent, rfl⟩ | faulty | ⟨nonempty, rootless, faultless, ended⟩
  · exact empty
  · exact hasParent
  · obtain ⟨child, member, isFault⟩ := List.exists_of_findSome?_eq_some faulty
    obtain ⟨positive, inRange⟩ := List.mem_range'_1.mp member
    exact hasFault_of_linkFault? (by omega) (by omega) isFault
  · have listed : ∀ child parent, (model.submodel child).parent = some parent →
        child ∈ (model.submodel parent).children := by
      intro child parent linked
      have positive : child ≠ 0 := by
        rintro rfl
        rw [rootless] at linked
        cases linked
      obtain ⟨other, _, otherLinked, isListed⟩ :=
        faultless_iff.mp faultless child (by omega) (lt_size_of_parent linked)
      rwa [Option.some.inj (linked.symm.trans otherLinked)]
    rcases (balanced_start nonempty rootless).search with
      ⟨found, searched, balanced⟩ | ⟨fault, failed, isFault⟩
    · rcases ended with failed | ⟨seen, child, sameSearch, missed, rfl⟩
      · rw [searched] at failed
        cases failed
      · cases searched.symm.trans sameSearch
        obtain ⟨inFound, unseen, _⟩ := Array.findIdx?_eq_some_iff_getElem.mp missed
        refine ⟨balanced.size_eq ▸ inFound, ?_⟩
        intro steps below
        have seen := balanced.seen_of_descends rootless listed below
        rw [Array.getElem?_eq_getElem inFound] at seen
        simp [Option.some.inj seen] at unseen
    · rcases ended with sameSearch | ⟨seen, _, searched, _⟩
      · cases failed.symm.trans sameSearch
        exact isFault
      · rw [failed] at searched
        cases searched

/-- The check accepts a hierarchy exactly if it is a tree: the links to parents lead from every
submodel to the first one, which has none, and every submodel lists each of its children once
and nothing else. -/
theorem validateHierarchy_eq_ok_iff :
    model.validateHierarchy = .ok () ↔
      0 < model.size ∧ (model.submodel 0).parent = none ∧
      (∀ index, 0 < index → index < model.size →
        (∃ parent, parent < model.size ∧ (model.submodel index).parent = some parent) ∧
          ∃ steps, model.Descends steps 0 index) ∧
      ∀ parent, parent < model.size → ∀ child,
        (model.submodel parent).children.count child =
          if (model.submodel child).parent = some parent then 1 else 0 := by
  constructor
  · intro valid
    have tree := isTree_of_validateHierarchy valid
    refine ⟨tree.nonempty, tree.rootless, ?_, ?_⟩
    · intro index positive inRange
      obtain ⟨parent, parentInRange, linked, _⟩ := tree.listed index positive inRange
      exact ⟨⟨parent, parentInRange, linked⟩, tree.reached index inRange⟩
    · intro parent inRange child
      rw [(tree.distinct parent inRange).count]
      refine if_congr ⟨?_, ?_⟩ rfl rfl
      · intro listed
        exact (tree.acknowledged parent child inRange listed).2
      · intro linked
        exact (tree.mem_children linked).2
  · rintro ⟨nonempty, rootless, linked, lists⟩
    have mem_children : ∀ parent child, parent < model.size →
        (child ∈ (model.submodel parent).children ↔
          (model.submodel child).parent = some parent) := by
      intro parent child inRange
      rw [← List.count_pos_iff, lists parent inRange]
      split_ifs with isParent <;> simp [isParent]
    apply validateHierarchy_of_isTree
    refine ⟨nonempty, rootless, ?_, ?_, ?_, ?_⟩
    · intro child positive inRange
      obtain ⟨⟨parent, parentInRange, isParent⟩, _⟩ := linked child positive inRange
      exact ⟨parent, parentInRange, isParent, (mem_children parent child parentInRange).mpr isParent⟩
    · intro parent child inRange listed
      have isParent := (mem_children parent child inRange).mp listed
      exact ⟨lt_size_of_parent isParent, isParent⟩
    · intro parent inRange
      refine List.nodup_iff_count_le_one.mpr fun child => ?_
      rw [lists parent inRange]
      split_ifs <;> omega
    · intro index inRange
      rcases Nat.eq_zero_or_pos index with rfl | positive
      · exact ⟨0, .itself 0⟩
      · exact (linked index positive inRange).2

end PaintOrder.Model
