import PaintOrder.Proofs.Code.Safety
import PaintOrder.Proofs.Model.Format

/-!
# Untrusted bytes

Any bytes can be executed from any entries in turn.  No access is outside of its list, every
instruction is dispatched at most once over all the executions, and whatever goes wrong is
reported as an error of the format, also when a model is made of what was recovered.
-/

namespace PaintOrder.Model

open Code

variable {data : Array UInt8}

theorem faceCount_linkedBuckets (data : Array UInt8) (buckets : List Bucket) :
    (linkedBuckets data buckets buckets.length).updateBounds.faceCount =
      Checked.facesIn (buckets.map some).toArray := by
  have sameFaces : (linkedBuckets data buckets buckets.length).updateBounds.submodels.toList.map
      Submodel.faces = (buckets.map some).map fun bucket? => (bucket?.getD {}).faces.toList := by
    apply List.ext_getElem
    · simp [linkedBuckets, updateBounds]
    · intro index inModel inBuckets
      simp [linkedBuckets, updateBounds, submodelOf]
  rw [faceCount, Checked.facesIn, List.flatMap_def, sameFaces, List.flatMap_def]

/-- What executions have recovered becomes a model or lacks a submodel. -/
theorem ofRecovery_afterEntries (data : Array UInt8) (entries : List Nat) :
    (∃ index, ofRecovery data (Execution.afterEntries data (.start data) entries) =
      .error (.format (.missingSubmodel index))) ∨
    ∃ model, ofRecovery data (Execution.afterEntries data (.start data) entries) = .ok model ∧
      model.faceCount =
        Checked.facesIn (Execution.afterEntries data (.start data) entries).buckets := by
  let recovery := Execution.afterEntries data (.start data) entries
  have becomes : (∃ index, ofRecovery data recovery = .error (.format (.missingSubmodel index))) ∨
      ∃ buckets, recovery.buckets.toList = buckets.map some ∧
        ofRecovery data recovery =
          .ok (linkedBuckets data buckets buckets.length).updateBounds := by
    rcases List.eq_nil_or_concat' entries with rfl | ⟨earlier, last, rfl⟩
    · exact .inr ⟨[], rfl, ofRecovery_eq_ok rfl nofun⟩
    · exact (ofRecovery_cases data
        (Execution.afterEntries_wellFormed data (.start data) earlier last)).imp_left
          fun ⟨index, _, missing⟩ => ⟨index, missing⟩
  rcases becomes with missing | ⟨buckets, complete, recovered⟩
  · exact .inl missing
  · refine .inr ⟨_, recovered, ?_⟩
    rw [faceCount_linkedBuckets, ← complete, Array.toArray_toList]

/-- From any entry, bytes become a model with no more faces than bytes, or the error is one of
the format. -/
theorem decompileAt_safe (addressable : Checked.Addressable data) (entry : Nat) :
    (∃ cause, decompileAt data entry = .error (.format cause)) ∨
      ∃ model, decompileAt data entry = .ok model ∧ model.faceCount ≤ data.size := by
  have started := Checked.Trace.start_sound data
  have made := ofRecovery_afterEntries data [entry]
  rw [Execution.afterEntries, List.foldl_cons, List.foldl_nil] at made
  have agrees := Checked.fromEntry_agrees addressable started entry
  change Checked.Agrees data _ _ ((Execution.fromEntry data entry).run (.start data)) at agrees
  rw [decompileAt]
  generalize (Checked.fromEntry data entry).run (.start data) = checked at agrees
  generalize (Execution.fromEntry data entry).run (.start data) = execution at agrees made ⊢
  cases agrees with
  | ok kept =>
      rcases made with ⟨index, missing⟩ | ⟨model, made, count⟩
      · exact .inl ⟨_, missing⟩
      · refine .inr ⟨model, made, ?_⟩
        rw [count]
        exact Nat.le_trans kept.sound.held
          (Nat.le_trans kept.sound.produced kept.sound.length_dispatched_le)
  | error cause _ => exact .inl ⟨cause, rfl⟩
  | again position _ _ => exact .inl ⟨_, rfl⟩

/-- Executing code from some entries in turn, each after whatever happened before, is safe. -/
structure SafelyExecuted (data : Array UInt8) (entries : List Nat) (trace : Checked.Trace) :
    Prop where
  /-- Without checks the same is recovered. -/
  recovered : trace.recovery = Execution.afterEntries data (.start data) entries
  /-- From any further entry, an execution ends without a fault: it does what it does without
  checks, at worst it reports an error of the format.  Wherever it arrives, an instruction is
  dispatched for the first time, or it ends because the instruction is shared. -/
  ends : ∀ entry, Checked.Agrees data (trace.enter entry)
    ((Checked.fromEntry data entry).run trace)
    ((Execution.fromEntry data entry).run trace.recovery)
  /-- No position was dispatched twice in all the executions. -/
  once : trace.dispatched.Nodup
  inside : ∀ position ∈ trace.dispatched, position < data.size
  /-- All the executions produced no more faces than there are bytes. -/
  produced : trace.produced ≤ data.size
  /-- What was recovered becomes a model, or the error is one of the format. -/
  becomes : (∃ cause, ofRecovery data trace.recovery = .error (.format cause)) ∨
    ∃ model, ofRecovery data trace.recovery = .ok model ∧ model.faceCount ≤ trace.produced

/-- Whatever the bytes and the entries are, executing them is safe, and a model is recovered
from any entry or the error is one of the format. -/
theorem untrusted_bytes_are_safe (addressable : Checked.Addressable data) (entries : List Nat) :
    SafelyExecuted data entries (Checked.afterEntries data (.start data) entries) ∧
      ∀ entry, (∃ cause, decompileAt data entry = .error (.format cause)) ∨
        ∃ model, decompileAt data entry = .ok model ∧ model.faceCount ≤ data.size := by
  obtain ⟨sound, recovered⟩ :=
    Checked.afterEntries_sound addressable (Checked.Trace.start_sound data) entries
  refine ⟨⟨recovered, Checked.fromEntry_agrees addressable sound, sound.once, ?_, ?_, ?_⟩, ?_⟩
  · intro position member
    have := sound.inside position member
    omega
  · exact Nat.le_trans sound.produced sound.length_dispatched_le
  · rw [recovered]
    rcases ofRecovery_afterEntries data entries with ⟨index, missing⟩ | ⟨model, made, count⟩
    · exact .inl ⟨_, missing⟩
    · refine .inr ⟨model, made, ?_⟩
      rw [count]
      exact recovered ▸ sound.held
  · exact decompileAt_safe addressable

/-- A sort with points in front of it and a polygon behind it is recovered with the polygon, and
is safe to execute again, from the polygon, from the bytes that nothing reaches, and from
behind the end. -/
theorem scatteredCode_is_safe :
    Checked.Addressable (scatteredCode [255, 255] [9]) ∧
      SafelyExecuted (scatteredCode [255, 255] [9]) [0, 0, 82, 34, 120, 500]
        (Checked.afterEntries (scatteredCode [255, 255] [9])
          (.start (scatteredCode [255, 255] [9])) [0, 0, 82, 34, 120, 500]) ∧
      (∀ entry,
        (∃ cause, decompileAt (scatteredCode [255, 255] [9]) entry = .error (.format cause)) ∨
          ∃ model, decompileAt (scatteredCode [255, 255] [9]) entry = .ok model ∧
            model.faceCount ≤ (scatteredCode [255, 255] [9]).size) ∧
      ∃ model, decompileAt (scatteredCode [255, 255] [9]) 0 = .ok model ∧
        model.faceCount = 1 := by
  have addressable : Checked.Addressable (scatteredCode [255, 255] [9]) := by decide +kernel
  obtain ⟨_, _, recovered⟩ := scatteredCode_recovered
  obtain ⟨executed, decompiled⟩ :=
    untrusted_bytes_are_safe addressable [0, 0, 82, 34, 120, 500]
  exact ⟨addressable, executed, decompiled, _, recovered, by decide +kernel⟩

end PaintOrder.Model
