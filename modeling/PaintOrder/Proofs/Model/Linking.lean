import PaintOrder.Model.Recover
import PaintOrder.Proofs.Outcome

/-!
# Linking what was recovered

Every bucket knows the submodel that called it.  The links are made in the order of the
numbers of the children, so after all of them every submodel lists its children in ascending
order.
-/

namespace PaintOrder.Model

open Code

/-- The model of some buckets with the links of the first ones. -/
def linkedBuckets (data : Array UInt8) (buckets : List Bucket) (count : Nat) : Model where
  submodels := (buckets.mapIdx fun index bucket =>
    { submodelOf bucket with
      parent := if index < count then bucket.parent else none
      children := (List.range count).filter fun child =>
        (buckets[child]?).bind Bucket.parent = some index }).toArray
  data := data

variable {data : Array UInt8} {buckets : List Bucket}

theorem linkedBuckets_size (count : Nat) :
    (linkedBuckets data buckets count).size = buckets.length := by
  simp [linkedBuckets, size]

theorem linkedBuckets_submodel {count index : Nat} (inRange : index < buckets.length) :
    (linkedBuckets data buckets count).submodel index =
      { submodelOf buckets[index] with
        parent := if index < count then buckets[index].parent else none
        children := (List.range count).filter fun child =>
          (buckets[child]?).bind Bucket.parent = some index } := by
  simp [linkedBuckets, submodel, Array.getD_eq_getD_getElem?, inRange]

theorem updateBounds_submodel (model : Model) (index : Nat) :
    model.updateBounds.submodel index =
      { model.submodel index with bounds := .ofFaces (model.submodel index).faces } := by
  simp only [updateBounds, submodel, Array.getD_eq_getD_getElem?, Array.getElem?_map]
  cases model.submodels[index]? <;> rfl

/-- A linked submodel lists those that have a link to it. -/
theorem mem_children_linkedBuckets {parent child : Nat} (inRange : parent < buckets.length) :
    child ∈ ((linkedBuckets data buckets buckets.length).updateBounds.submodel parent).children ↔
      child < buckets.length ∧
        ((linkedBuckets data buckets buckets.length).updateBounds.submodel child).parent =
          some parent := by
  simp only [updateBounds_submodel, linkedBuckets_submodel inRange, List.mem_filter,
    List.mem_range, decide_eq_true_eq]
  refine and_congr_right fun childInRange => ?_
  simp [linkedBuckets_submodel childInRange, childInRange]

/-- A submodel with its link and the links of its children. -/
theorem linkedBuckets_updateBounds {bucketOf : Nat → Bucket} {count index : Nat}
    (inRange : index < count) :
    (linkedBuckets data ((List.range count).map bucketOf) count).updateBounds.submodel index =
      { offset := (bucketOf index).offset
        bounds := .ofFaces (bucketOf index).faces.toList
        entry := (bucketOf index).entry
        parent := (bucketOf index).parent
        children := (List.range count).filter fun child =>
          (bucketOf child).parent = some index
        faces := (bucketOf index).faces.toList } := by
  have children : (List.range count).filter (fun child =>
      ((((List.range count).map bucketOf)[child]?).bind Bucket.parent = some index : Bool)) =
        (List.range count).filter fun child => (bucketOf child).parent = some index := by
    apply List.filter_congr
    intro child member
    simp [List.mem_range.mp member]
  rw [updateBounds_submodel, linkedBuckets_submodel (by simpa using inRange), children]
  simp [submodelOf, inRange]

theorem linkedBuckets_zero :
    linkedBuckets data buckets 0 =
      { submodels := (buckets.map submodelOf).toArray, data := data } := by
  have same : ∀ bucket : Bucket, { submodelOf bucket with parent := none, children := [] } =
      submodelOf bucket := by
    intro bucket
    rfl
  simp only [linkedBuckets, Nat.not_lt_zero, if_false, List.range_zero, List.filter_nil, same]
  congr 2
  rw [List.mapIdx_eq_iff]
  intro index
  rw [List.getElem?_map]

theorem linkedBuckets_succ_of_root {count : Nat} (inRange : count < buckets.length)
    (rootless : buckets[count].parent = none) :
    linkedBuckets data buckets (count + 1) = linkedBuckets data buckets count := by
  have noParent : (buckets[count]?).bind Bucket.parent = none := by
    simp [inRange, rootless]
  simp only [linkedBuckets, List.range_succ, List.filter_append]
  congr 2
  apply List.ext_getElem
  · simp
  · intro index inLeft inRight
    by_cases last : index = count
    · subst last
      simp [noParent, rootless]
    · have same : (index < count + 1) = (index < count) := by
        rw [eq_iff_iff]
        omega
      simp only [same, List.getElem_mapIdx]
      simp [noParent]

/-- Attaching the next submodel to the one that called it makes its link. -/
theorem linkedBuckets_attach {count parent : Nat} (inRange : count < buckets.length)
    (calledBy : buckets[count].parent = some parent) (parentInRange : parent < buckets.length)
    (notItself : parent ≠ count) :
    (linkedBuckets data buckets count).attach parent count =
      .ok (linkedBuckets data buckets (count + 1)) := by
  have unlinked : ((linkedBuckets data buckets count).submodel count).parent = none := by
    rw [linkedBuckets_submodel inRange]
    simp
  have detached : (linkedBuckets data buckets count).detach count =
      linkedBuckets data buckets count := by
    rw [detach, unlinked]
  rw [attach, linkedBuckets_size, if_neg (by omega), if_neg notItself, detached]
  congr 1
  simp only [alter, linkedBuckets]
  congr 1
  apply Array.ext_getElem?
  intro index
  simp only [Array.getElem?_modify, List.getElem?_toArray, List.getElem?_mapIdx]
  cases stored : buckets[index]? with
  | none => simp
  | some bucket =>
      have here : (buckets[count]?).bind Bucket.parent = some parent := by
        simp [inRange, calledBy]
      by_cases isParent : parent = index
      · subst isParent
        have different : count ≠ parent := Ne.symm notItself
        have same : parent < count + 1 ↔ parent < count := by omega
        simp [different, same, addChild, List.range_succ, here]
      · by_cases isChild : count = index
        · subst isChild
          obtain rfl : buckets[count] = bucket := by
            simpa [inRange] using stored
          simp [isParent, setParent, calledBy, List.range_succ, here]
        · have same : index < count + 1 ↔ index < count := by omega
          simp [isParent, isChild, same, List.range_succ, here]

/-- Links can be made if every submodel was called by another one. -/
theorem link_eq_ok
    (calledBy : ∀ index parent (inRange : index < buckets.length),
      buckets[index].parent = some parent → parent < buckets.length ∧ parent ≠ index) :
    (linkedBuckets data buckets 0).link buckets =
      .ok (linkedBuckets data buckets buckets.length) := by
  apply foldlM_zipIdx_eq_ok (linkedBuckets data buckets)
  intro index inRange
  cases called : buckets[index].parent with
  | none =>
      rw [linkedBuckets_succ_of_root inRange called]
      simp only [called]
  | some parent =>
      obtain ⟨parentInRange, notItself⟩ := calledBy index parent inRange called
      rw [← linkedBuckets_attach inRange called parentInRange notItself]
      simp only [called]

theorem allBuckets_eq_ok (buckets : List Bucket) :
    allBuckets (buckets.map some) = .ok buckets := by
  apply mapM_eq_ok.mpr
  rw [List.forall₂_iff_get]
  refine ⟨by simp, ?_⟩
  intro index _ inRange
  simp

/-- What is recovered becomes a model if every submodel was called by another one. -/
theorem ofRecovery_eq_ok {recovery : Recovery}
    (complete : recovery.buckets.toList = buckets.map some)
    (calledBy : ∀ index parent (inRange : index < buckets.length),
      buckets[index].parent = some parent → parent < buckets.length ∧ parent ≠ index) :
    ofRecovery data recovery =
      .ok (linkedBuckets data buckets buckets.length).updateBounds := by
  rw [ofRecovery, complete, allBuckets_eq_ok, liftM_format]
  simp only [Except.mapError, ok_bind]
  rw [← linkedBuckets_zero, link_eq_ok calledBy]
  rfl

end PaintOrder.Model
