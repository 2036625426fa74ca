import PaintOrder.Proofs.Code.Calls
import PaintOrder.Proofs.Model.Linking
import PaintOrder.Proofs.Model.Validation

/-!
# Recovered models are well-formed

Whatever the bytes are and however executions end, what was recovered either lacks a submodel
or becomes a model with a valid hierarchy, in which every face is a polygon that can be drawn.
The calls make the hierarchy a tree; the numbers of the submodels play no part in that.
-/

namespace PaintOrder.Model

open Code

variable {recovery : Recovery} {buckets : List Bucket}

/-- Buckets are complete unless the one of some submodel is missing. -/
theorem allBuckets_cases (stored : List (Option Bucket)) :
    (∃ buckets, allBuckets stored = .ok buckets ∧ stored = buckets.map some) ∨
      ∃ index, stored[index]? = some none ∧
        allBuckets stored = .error (.missingSubmodel index) := by
  cases gathered : allBuckets stored with
  | ok buckets =>
      left
      refine ⟨buckets, rfl, ?_⟩
      have related := List.forall₂_iff_get.mp (mapM_eq_ok.mp gathered)
      have sameLength : stored.length = buckets.length := by simpa using related.1
      apply List.ext_getElem (by simpa using sameLength)
      intro index inStored inBuckets
      have here := related.2 index (by simpa using inStored) (by simpa using inBuckets)
      simp only [List.get_eq_getElem, List.getElem_zipIdx, List.getElem_map] at here ⊢
      split at here
      · next isBucket => rw [isBucket, Except.ok.inj here]
      · cases here
  | error cause =>
      right
      obtain ⟨⟨bucket?, index⟩, member, failed⟩ := exists_of_mapM_eq_error gathered
      cases bucket? with
      | some bucket => cases failed
      | none =>
          exact ⟨index, List.mem_zipIdx_iff_getElem?.mp member, by rw [Except.error.inj failed]⟩

section Complete

variable (complete : recovery.buckets.toList = buckets.map some)
include complete

theorem bucket?_eq (index : Nat) : recovery.bucket? index = buckets[index]? := by
  rw [Recovery.bucket?, ← Array.getElem?_toList, complete, List.getElem?_map]
  cases buckets[index]? <;> rfl

theorem exists_bucket? {index : Nat} (inRange : index < buckets.length) :
    ∃ bucket, recovery.bucket? index = some bucket :=
  ⟨buckets[index], by rw [bucket?_eq complete, List.getElem?_eq_getElem inRange]⟩

theorem lt_length_of_bucket? {index : Nat} {bucket : Bucket}
    (opened : recovery.bucket? index = some bucket) : index < buckets.length := by
  rw [bucket?_eq complete] at opened
  exact (List.getElem?_eq_some_iff.mp opened).1

/-- A submodel has the link that its bucket tells. -/
theorem parent_linkedBuckets (data : Array UInt8) {index : Nat} {bucket : Bucket}
    (opened : recovery.bucket? index = some bucket) :
    ((linkedBuckets data buckets buckets.length).updateBounds.submodel index).parent =
      bucket.parent := by
  rw [bucket?_eq complete] at opened
  obtain ⟨inRange, rfl⟩ := List.getElem?_eq_some_iff.mp opened
  simp [updateBounds_submodel, linkedBuckets_submodel inRange, inRange]

/-- What was reached by calls from the root is below the root. -/
theorem descends_of_reached (data : Array UInt8) {index : Nat}
    (reached : recovery.Reached index) :
    ∃ steps, (linkedBuckets data buckets buckets.length).updateBounds.Descends steps 0 index := by
  induction reached with
  | root => exact ⟨0, .itself 0⟩
  | called _ opened calledBy ih =>
      obtain ⟨steps, above⟩ := ih
      have isParent := (parent_linkedBuckets complete data opened).trans calledBy
      exact ⟨steps + 1, .child above isParent⟩

/-- The submodels of well-formed buckets form a tree once they are linked. -/
theorem isTree_of_wellFormed (data : Array UInt8) (wellFormed : recovery.WellFormed) :
    (linkedBuckets data buckets buckets.length).updateBounds.IsTree := by
  have size : (linkedBuckets data buckets buckets.length).updateBounds.size =
      buckets.length := by
    simp [Model.size, updateBounds, linkedBuckets]
  obtain ⟨root, rootOpened, uncalled⟩ := wellFormed.rooted
  constructor
  case nonempty =>
    rw [size]
    exact lt_length_of_bucket? complete rootOpened
  case rootless => exact (parent_linkedBuckets complete data rootOpened).trans uncalled
  case listed =>
    intro child positive inRange
    rw [size] at inRange ⊢
    obtain ⟨bucket, opened⟩ := exists_bucket? complete inRange
    cases wellFormed.reached child bucket opened with
    | root => exact absurd positive (Nat.lt_irrefl 0)
    | @called parent _ caller above calledOpened calledBy =>
        obtain ⟨parentBucket, parentOpened⟩ := above.exists_bucket
        have parentInRange := lt_length_of_bucket? complete parentOpened
        have isParent := (parent_linkedBuckets complete data calledOpened).trans calledBy
        exact ⟨parent, parentInRange, isParent,
          (mem_children_linkedBuckets parentInRange).mpr ⟨inRange, isParent⟩⟩
  case acknowledged =>
    intro parent child inRange
    rw [size] at inRange ⊢
    exact (mem_children_linkedBuckets inRange).mp
  case distinct =>
    intro parent inRange
    rw [size] at inRange
    simp only [updateBounds_submodel, linkedBuckets_submodel inRange]
    exact List.nodup_range.filter _
  case reached =>
    intro index inRange
    rw [size] at inRange
    obtain ⟨bucket, opened⟩ := exists_bucket? complete inRange
    exact descends_of_reached complete data (wellFormed.reached index bucket opened)

theorem linkedBuckets_drawable {data : Array UInt8} (wellFormed : recovery.WellFormed)
    (index : Nat) :
    ∀ face ∈ ((linkedBuckets data buckets buckets.length).updateBounds.submodel index).faces,
      face.Drawable := by
  intro face member
  rw [updateBounds_submodel] at member
  rcases Nat.lt_or_ge index buckets.length with inRange | outside
  · rw [linkedBuckets_submodel inRange] at member
    refine wellFormed.drawable index buckets[index] ?_ face member
    rw [bucket?_eq complete, List.getElem?_eq_getElem inRange]
  · have absent : (linkedBuckets data buckets buckets.length).submodel index = {} := by
      rw [submodel, Array.getD_eq_getD_getElem?,
        Array.getElem?_eq_none (by simpa [linkedBuckets] using outside)]
      rfl
    rw [absent] at member
    cases member

end Complete

/-- Well-formed buckets become a model unless one is missing. -/
theorem ofRecovery_cases (data : Array UInt8) (wellFormed : recovery.WellFormed) :
    (∃ index, recovery.buckets[index]? = some none ∧
      ofRecovery data recovery = .error (.format (.missingSubmodel index))) ∨
      ∃ buckets, recovery.buckets.toList = buckets.map some ∧
        ofRecovery data recovery =
          .ok (linkedBuckets data buckets buckets.length).updateBounds := by
  rcases allBuckets_cases recovery.buckets.toList with
    ⟨buckets, gathered, complete⟩ | ⟨index, absent, missing⟩
  · right
    refine ⟨buckets, complete, ofRecovery_eq_ok complete ?_⟩
    intro index parent inRange calledBy
    have opened : recovery.bucket? index = some buckets[index] := by
      rw [bucket?_eq complete, List.getElem?_eq_getElem inRange]
    have reached := wellFormed.reached index buckets[index] opened
    refine ⟨?_, ?_⟩
    · cases reached with
      | root rootOpened uncalled =>
          obtain rfl := Option.some.inj (rootOpened.symm.trans opened)
          rw [uncalled] at calledBy
          cases calledBy
      | called above calledOpened linked =>
          obtain rfl := Option.some.inj (calledOpened.symm.trans opened)
          obtain rfl := Option.some.inj (linked.symm.trans calledBy)
          obtain ⟨caller, callerOpened⟩ := above.exists_bucket
          rw [bucket?_eq complete] at callerOpened
          exact (List.getElem?_eq_some_iff.mp callerOpened).1
    · rintro rfl
      exact reached.parent_ne opened calledBy
  · left
    refine ⟨index, by rwa [Array.getElem?_toList] at absent, ?_⟩
    rw [ofRecovery, missing]
    rfl

/-- However often and from wherever code was executed, what was recovered lacks a submodel or
is a model with a valid hierarchy.  The check of a face can only object to its normal. -/
theorem recovered_is_wellFormed (data : Array UInt8) (earlier : List Nat) (last : Nat) :
    (∃ index, ofRecovery data (Execution.afterEntries data (.start data) (earlier ++ [last])) =
      .error (.format (.missingSubmodel index))) ∨
    ∃ model, ofRecovery data
        (Execution.afterEntries data (.start data) (earlier ++ [last])) = .ok model ∧
      model.IsTree ∧ model.validateHierarchy = .ok () ∧
      ∀ index, ∀ face ∈ (model.submodel index).faces,
        3 ≤ face.size ∧
        (∀ vertex ∈ face.vertices, vertex.uv.isSome = face.isTextured) ∧
        ∀ label, face.validate label = .ok () ∨
          face.validate label = .error (.degenerateFace label) := by
  have wellFormed := Execution.afterEntries_wellFormed data (.start data) earlier last
  rcases ofRecovery_cases data wellFormed with
    ⟨index, _, missing⟩ | ⟨buckets, complete, recovered⟩
  · exact .inl ⟨index, missing⟩
  · right
    have tree := isTree_of_wellFormed complete data wellFormed
    refine ⟨_, recovered, tree, validateHierarchy_of_isTree tree, ?_⟩
    intro index face member
    have isDrawable := linkedBuckets_drawable complete wellFormed index face member
    refine ⟨isDrawable.enough, isDrawable.painted, ?_⟩
    intro label
    rw [isDrawable.validate_eq]
    split_ifs
    · exact .inr rfl
    · exact .inl rfl

end PaintOrder.Model
