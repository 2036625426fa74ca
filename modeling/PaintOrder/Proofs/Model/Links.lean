import PaintOrder.Proofs.Model.Verdict

/-!
# Links on which both sides agree

Submodels are added to a model and attached to each other by calls that change it in place.
Whatever the calls are, and whether they succeed or fail, both sides agree on every link and no
child is listed twice, even where the links are no tree.  A call that fails changes nothing, and
attaching moves one child and leaves all else as it was.  So when the hierarchy is refused, it
is empty, its root has a parent, or a submodel cannot be reached from the root.
-/

namespace PaintOrder.Model

variable {model before after : Model} {parent child : Nat}

theorem attach_eq_ok_iff :
    model.attach parent child = .ok after ↔
      parent < model.size ∧ child < model.size ∧ parent ≠ child ∧
        after = ((model.detach child).alter child (setParent parent)).alter parent
          (addChild child) := by
  rw [attach]
  split_ifs with outside itself
  · simp only [false_iff]
    omega
  · simp [itself]
  · simp only [Except.ok.injEq, itself, ne_eq, not_false_eq_true, true_and]
    rw [eq_comm]
    constructor
    · rintro rfl
      exact ⟨by omega, by omega, rfl⟩
    · rintro ⟨_, _, rfl⟩
      rfl

section InPlace

/-- How a call ends that changes a model only if it succeeds. -/
def settle {α : Type} (model : Model) :
    Except StructuralError (Model × α) → EStateM.Result StructuralError Model α
  | .ok (changed, value) => .ok value changed
  | .error cause => .error cause model

def push (model : Model) (submodel : Submodel) : Model :=
  { model with submodels := model.submodels.push { submodel with parent := none } }

@[simp] theorem size_push (model : Model) (submodel : Submodel) :
    (model.push submodel).size = model.size + 1 :=
  Array.size_push _

/-- Attaching, one change after the other. -/
def attachInPlace (parent child : Nat) : EStateM StructuralError Model Unit := do
  let model ← get
  if model.size ≤ parent ∨ model.size ≤ child then throw (.brokenLink parent child)
  if parent = child then throw (.cycle child)
  modify fun model => model.detach child
  modify fun model => model.alter child (setParent parent)
  modify fun model => model.alter parent (addChild child)

/-- Adding a submodel, one change after the other: it is there before it is attached. -/
def addInPlace (parent : Option Nat) (submodel : Submodel) :
    EStateM StructuralError Model Nat := do
  let model ← get
  if parent.any (model.size ≤ ·) then throw (.orphan model.size)
  modify fun model => model.push submodel
  if let some parent := parent then
    attachInPlace parent model.size
  return model.size

theorem attachInPlace_run (model : Model) (parent child : Nat) :
    (attachInPlace parent child).run model =
      model.settle ((model.attach parent child).map fun changed => (changed, ())) := by
  rw [attachInPlace, run_get_bind, attach]
  by_cases outside : model.size ≤ parent ∨ model.size ≤ child
  · simp only [if_pos outside]
    rfl
  · by_cases itself : parent = child
    · simp only [if_neg outside, if_pos itself]
      rfl
    · simp only [if_neg outside, if_neg itself]
      rfl

/-- A submodel that was just added can be attached to any of those before it. -/
theorem attach_push (submodel : Submodel) (inRange : parent < model.size) :
    ∃ after, (model.push submodel).attach parent model.size = .ok after :=
  ⟨_, attach_eq_ok_iff.mpr ⟨by simp; omega, by simp, Nat.ne_of_lt inRange, rfl⟩⟩

theorem addInPlace_run (model : Model) (parent : Option Nat) (submodel : Submodel) :
    (addInPlace parent submodel).run model = model.settle (model.addSubmodel parent submodel) := by
  rw [addInPlace, run_get_bind]
  unfold addSubmodel
  cases parent with
  | none => rfl
  | some parent =>
      by_cases outside : model.size ≤ parent
      · simp only [Option.any_some, decide_eq_true_eq, if_pos outside]
        rfl
      · obtain ⟨after, attached⟩ := attach_push submodel (Nat.lt_of_not_le outside)
        have ran : (attachInPlace parent model.size).run (model.push submodel) =
            .ok () after := by
          rw [attachInPlace_run, attached]
          rfl
        simp only [Option.any_some, decide_eq_true_eq, if_neg outside]
        rw [run_modify_bind, run_bind_of_ok ran]
        change _ = model.settle ((model.push submodel).attach parent model.size >>= _)
        rw [attached]
        rfl

end InPlace

section Steps

/-- Both sides agree on every link, and no child is listed twice. -/
structure Interlinked (model : Model) : Prop where
  agree : ∀ parent child, child ∈ (model.submodel parent).children ↔
    (model.submodel child).parent = some parent
  distinct : ∀ parent, (model.submodel parent).children.Nodup

/-- A child moves to the end of the list of a parent.  All else is as before, and so is the
order of all other children. -/
structure Moved (parent child : Nat) (before after : Model) : Prop where
  data_eq : after.data = before.data
  size_eq : after.size = before.size
  submodel_eq : ∀ index, after.submodel index =
    { before.submodel index with
      parent := if index = child then some parent else (before.submodel index).parent
      children := (before.submodel index).children.filter (· ≠ child) ++
        if index = parent then [child] else [] }
  /-- Only the lists of the old and the new parent can change. -/
  untouched : ∀ index, index ≠ parent → (before.submodel child).parent ≠ some index →
    (after.submodel index).children = (before.submodel index).children

theorem submodel_alter (model : Model) {index : Nat} (inRange : index < model.size)
    (change : Submodel → Submodel) (other : Nat) :
    (model.alter index change).submodel other =
      if other = index then change (model.submodel other) else model.submodel other := by
  simp only [alter, submodel, Array.getD_eq_getD_getElem?, Array.getElem?_modify]
  split_ifs with same other_eq other_eq
  · rw [← same, Array.getElem?_eq_getElem inRange]
    rfl
  · omega
  · omega
  · rfl

theorem size_alter (model : Model) (index : Nat) (change : Submodel → Submodel) :
    (model.alter index change).size = model.size :=
  Array.size_modify

theorem size_detach (model : Model) (child : Nat) : (model.detach child).size = model.size := by
  rw [detach]
  split
  · rfl
  · exact size_alter ..

theorem data_detach (model : Model) (child : Nat) : (model.detach child).data = model.data := by
  rw [detach]
  split <;> rfl

theorem lt_size_of_mem_children (listed : child ∈ (model.submodel parent).children) :
    parent < model.size := by
  by_contra outside
  rw [submodel, Array.getD_eq_getD_getElem?, Array.getElem?_eq_none (Nat.le_of_not_lt outside)]
    at listed
  cases listed

theorem submodel_push (model : Model) (submodel : Submodel) (index : Nat) :
    (model.push submodel).submodel index =
      if index = model.size then { submodel with parent := none } else model.submodel index := by
  simp only [push, Model.submodel, size, Array.getD_eq_getD_getElem?, Array.getElem?_push]
  split_ifs <;> rfl

namespace Interlinked

/-- Where a child is not listed, taking it out of a list changes nothing. -/
theorem filter_children (linked : model.Interlinked) {index : Nat}
    (other : (model.submodel child).parent ≠ some index) :
    (model.submodel index).children.filter (· ≠ child) = (model.submodel index).children := by
  refine List.filter_eq_self.mpr fun member listed => ?_
  rw [decide_eq_true_eq]
  rintro rfl
  exact other ((linked.agree index member).mp listed)

theorem submodel_detach (linked : model.Interlinked) (child index : Nat) :
    (model.detach child).submodel index =
      { model.submodel index with
        children := (model.submodel index).children.filter (· ≠ child) } := by
  rw [detach]
  cases isChild : (model.submodel child).parent with
  | none =>
      rw [linked.filter_children (by simp [isChild])]
  | some parent =>
      have inRange := lt_size_of_mem_children ((linked.agree parent child).mpr isChild)
      simp only [submodel_alter model inRange]
      split_ifs with same
      · rfl
      · rw [linked.filter_children (by simpa [isChild] using Ne.symm same)]

/-- Attaching a child moves it. -/
theorem moved (linked : model.Interlinked) (attached : model.attach parent child = .ok after) :
    Moved parent child model after := by
  obtain ⟨parentInRange, childInRange, different, rfl⟩ := attach_eq_ok_iff.mp attached
  have submodel_eq : ∀ index,
      (((model.detach child).alter child (setParent parent)).alter parent
        (addChild child)).submodel index =
      { model.submodel index with
        parent := if index = child then some parent else (model.submodel index).parent
        children := (model.submodel index).children.filter (· ≠ child) ++
          if index = parent then [child] else [] } := by
    intro index
    rw [submodel_alter _ (by rwa [size_alter, size_detach]),
      submodel_alter _ (by rwa [size_detach]), linked.submodel_detach]
    by_cases isParent : index = parent
    · subst isParent
      simp [addChild, different]
    · by_cases isChild : index = child
      · simp [isChild, setParent, Ne.symm different]
      · simp [isParent, isChild]
  refine ⟨?_, ?_, submodel_eq, ?_⟩
  · exact data_detach model child
  · rw [size_alter, size_alter, size_detach]
  · intro index notParent notOld
    simp only [submodel_eq, notParent, if_false, List.append_nil]
    exact linked.filter_children notOld

/-- The links agree after a child was moved. -/
theorem of_moved (linked : before.Interlinked) (moved : Moved parent child before after) :
    after.Interlinked := by
  constructor
  · intro owner member
    simp only [moved.submodel_eq, List.mem_append, List.mem_filter, linked.agree,
      decide_eq_true_eq]
    by_cases isChild : member = child <;> by_cases isOwner : owner = parent
    · simp [isChild, isOwner]
    · simp [isChild, isOwner, Ne.symm isOwner]
    · simp [isChild, isOwner]
    · simp [isChild, isOwner]
  · intro owner
    rw [moved.submodel_eq]
    refine List.nodup_append.mpr ⟨(linked.distinct owner).filter _, ?_, ?_⟩
    · split_ifs <;> simp
    · intro member listed other isChild
      split_ifs at isChild
      · obtain rfl := List.mem_singleton.mp isChild
        simpa using (List.mem_filter.mp listed).2
      · cases isChild

/-- The links agree after a submodel without children was added. -/
theorem push (linked : model.Interlinked) {submodel : Submodel}
    (childless : submodel.children = []) : (model.push submodel).Interlinked := by
  have newParentless : (model.submodel model.size).parent = none := by
    by_contra isChild
    obtain ⟨parent, isParent⟩ := Option.ne_none_iff_exists'.mp isChild
    exact Nat.lt_irrefl _ (lt_size_of_parent isParent)
  have newChildless : (model.submodel model.size).children = [] := by
    refine List.eq_nil_iff_forall_not_mem.mpr fun child listed => ?_
    exact Nat.lt_irrefl _ (lt_size_of_mem_children listed)
  have children_eq : ∀ index,
      ((model.push submodel).submodel index).children = (model.submodel index).children := by
    intro index
    rw [submodel_push]
    split_ifs with isNew
    · rw [isNew, newChildless, childless]
    · rfl
  have parent_eq : ∀ index,
      ((model.push submodel).submodel index).parent = (model.submodel index).parent := by
    intro index
    rw [submodel_push]
    split_ifs with isNew
    · rw [isNew, newParentless]
    · rfl
  refine ⟨?_, ?_⟩
  · intro parent child
    rw [children_eq, parent_eq]
    exact linked.agree parent child
  · intro parent
    rw [children_eq]
    exact linked.distinct parent

theorem attach (linked : model.Interlinked) (attached : model.attach parent child = .ok after) :
    after.Interlinked :=
  linked.of_moved (linked.moved attached)

theorem addSubmodel (linked : model.Interlinked) {parent : Option Nat} {submodel : Submodel}
    {index : Nat} (childless : submodel.children = [])
    (added : model.addSubmodel parent submodel = .ok (after, index)) : after.Interlinked := by
  have pushed : (model.push submodel).Interlinked := linked.push childless
  cases parent with
  | none =>
      cases added
      exact pushed
  | some parent =>
      simp only [Model.addSubmodel] at added
      split_ifs at added with outside
      obtain ⟨attached, isAttached, same⟩ := bind_eq_ok.mp added
      cases pure_eq_ok.mp same
      exact pushed.attach isAttached

end Interlinked

end Steps

/-- The models that calls lead to from a model without submodels or with a single one.  A call
leaves what it has made of the model, whether it succeeds or fails. -/
inductive Edited : Model → Prop
  | empty : Edited {}
  | ofFaces (faces : List Face) : Edited (.ofFaces faces)
  | add {model : Model} (earlier : Edited model) (parent : Option Nat) (submodel : Submodel)
      (childless : submodel.children = []) :
      Edited (leftover ((addInPlace parent submodel).run model))
  | attach {model : Model} (earlier : Edited model) (parent child : Nat) :
      Edited (leftover ((attachInPlace parent child).run model))

theorem interlinked_of_unlinked (parentless : ∀ index, (model.submodel index).parent = none)
    (childless : ∀ index, (model.submodel index).children = []) : model.Interlinked := by
  constructor
  · intro parent child
    simp [parentless, childless]
  · intro parent
    rw [childless]
    exact List.nodup_nil

theorem submodel_ofFaces (faces : List Face) (index : Nat) :
    (ofFaces faces).submodel index = if index = 0 then { faces := faces } else {} := by
  cases index <;> rfl

theorem Edited.interlinked (edited : model.Edited) : model.Interlinked := by
  induction edited with
  | empty => exact interlinked_of_unlinked (fun _ => rfl) (fun _ => rfl)
  | ofFaces faces =>
      refine interlinked_of_unlinked (fun index => ?_) (fun index => ?_)
      all_goals
        rw [submodel_ofFaces]
        split_ifs <;> rfl
  | @add model _ parent submodel childless linked =>
      rw [addInPlace_run]
      cases added : model.addSubmodel parent submodel with
      | error cause => exact linked
      | ok result => exact linked.addSubmodel childless added
  | @attach model _ parent child linked =>
      rw [attachInPlace_run]
      cases attached : model.attach parent child with
      | error cause => exact linked
      | ok result => exact linked.attach attached

/-- What holds of the links of a model, and of the calls that change them. -/
structure Consistent (model : Model) : Prop where
  /-- A submodel lists exactly those whose parent it is. -/
  agree : ∀ parent child, child ∈ (model.submodel parent).children ↔
    (model.submodel child).parent = some parent
  distinct : ∀ parent, (model.submodel parent).children.Nodup
  inRange : ∀ parent child, (model.submodel child).parent = some parent →
    parent < model.size ∧ child < model.size
  /-- Calls that fail leave the model as it is. -/
  added : ∀ parent submodel,
    (addInPlace parent submodel).run model = model.settle (model.addSubmodel parent submodel)
  attached : ∀ parent child,
    (attachInPlace parent child).run model =
      model.settle ((model.attach parent child).map fun changed => (changed, ()))
  moved : ∀ parent child after, model.attach parent child = .ok after →
    Moved parent child model after
  /-- The hierarchy is never refused for a broken link or a cycle. -/
  refused : ∀ cause, model.validateHierarchy = .error cause →
    cause = .emptyHierarchy ∨ cause = .rootHasParent ∨ ∃ child, cause = .orphan child

/-- However submodels were added and attached, the links of a model are consistent. -/
theorem edited_links_are_consistent (edited : model.Edited) : model.Consistent := by
  have linked := edited.interlinked
  refine ⟨linked.agree, linked.distinct, ?_, addInPlace_run model, attachInPlace_run model,
    fun _ _ _ => linked.moved, ?_⟩
  · intro parent child isParent
    exact ⟨lt_size_of_mem_children ((linked.agree parent child).mpr isParent),
      lt_size_of_parent isParent⟩
  · intro cause refused
    have isFault := hasFault_of_validateHierarchy refused
    cases cause with
    | emptyHierarchy => exact .inl rfl
    | rootHasParent => exact .inr (.inl rfl)
    | orphan child => exact .inr (.inr ⟨child, rfl⟩)
    | brokenLink parent child => exact absurd (linked.agree parent child) isFault
    | cycle index =>
        obtain ⟨parent, twice⟩ := isFault
        have := List.nodup_iff_count_le_one.mp (linked.distinct parent) index
        omega
    | _ => exact isFault.elim

section Example

/-- Three submodels in a ring: the root is below the submodel that is below its child. -/
def ring : Model where
  submodels := #[{ parent := some 2, children := [1] }, { parent := some 0, children := [2] },
    { parent := some 1, children := [0] }]

/-- A ring is made of a chain by attaching its root, past a call that fails.  Its links are
consistent, and the hierarchy is refused because of its root. -/
theorem ring_links_are_consistent :
    ring.Edited ∧ ring.validateHierarchy = .error .rootHasParent ∧ ring.Consistent := by
  have chain := ((Edited.empty.add none {} rfl).add (some 0) {} rfl).add (some 1) {} rfl
  have edited : ring.Edited := (chain.attach 3 0).attach 2 0
  exact ⟨edited, by decide, edited_links_are_consistent edited⟩

end Example

end PaintOrder.Model
