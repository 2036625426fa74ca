import PaintOrder.Proofs.Code.Decoding
import PaintOrder.Proofs.Code.Recovery
import PaintOrder.Proofs.Code.Walk
import PaintOrder.Proofs.Geometry.Polygon

/-!
# Buckets are opened by calls

A bucket is only opened by a call from a bucket that is open, and it stays open for the same
caller.  So however far an execution gets, the callers of every bucket lead back to the root,
whatever their numbers are, and every face in a bucket is a polygon that was read whole.
-/

namespace PaintOrder.Code

variable {data : Array UInt8} {submodel position : Nat} {recovery later : Recovery}

namespace Recovery

/-- A submodel that is open was called from the root, by way of others that are open. -/
inductive Reached (recovery : Recovery) : Nat → Prop
  | root {bucket : Bucket} (opened : recovery.bucket? 0 = some bucket)
      (uncalled : bucket.parent = none) : Reached recovery 0
  | called {parent index : Nat} {bucket : Bucket} (above : Reached recovery parent)
      (opened : recovery.bucket? index = some bucket) (linked : bucket.parent = some parent) :
      Reached recovery index

/-- What every execution keeps true of its buckets. -/
structure WellFormed (recovery : Recovery) : Prop where
  rooted : ∃ bucket, recovery.bucket? 0 = some bucket ∧ bucket.parent = none
  reached : ∀ index bucket, recovery.bucket? index = some bucket → recovery.Reached index
  drawable : ∀ index bucket, recovery.bucket? index = some bucket →
    ∀ face ∈ bucket.faces.toList, face.Drawable

/-- Open buckets stay open for the same caller. -/
def Grows (earlier later : Recovery) : Prop :=
  ∀ index bucket, earlier.bucket? index = some bucket →
    ∃ grown, later.bucket? index = some grown ∧ grown.parent = bucket.parent

namespace Grows

theorem refl (recovery : Recovery) : recovery.Grows recovery :=
  fun _ bucket opened => ⟨bucket, opened, rfl⟩

theorem trans {first second third : Recovery} (before : first.Grows second)
    (after : second.Grows third) : first.Grows third := by
  intro index bucket opened
  obtain ⟨middle, middleOpened, sameParent⟩ := before index bucket opened
  obtain ⟨last, lastOpened, sameAgain⟩ := after index middle middleOpened
  exact ⟨last, lastOpened, sameAgain.trans sameParent⟩

theorem isSome (grows : recovery.Grows later) {index : Nat}
    (opened : (recovery.bucket? index).isSome) : (later.bucket? index).isSome := by
  obtain ⟨bucket, isBucket⟩ := Option.isSome_iff_exists.mp opened
  obtain ⟨grown, isGrown, _⟩ := grows index bucket isBucket
  exact Option.isSome_iff_exists.mpr ⟨grown, isGrown⟩

theorem reached (grows : recovery.Grows later) {index : Nat}
    (reached : recovery.Reached index) : later.Reached index := by
  induction reached with
  | root opened uncalled =>
      obtain ⟨grown, isGrown, sameParent⟩ := grows 0 _ opened
      exact .root isGrown (sameParent.trans uncalled)
  | @called parent index _ above opened linked ih =>
      obtain ⟨grown, isGrown, sameParent⟩ := grows index _ opened
      exact .called ih isGrown (sameParent.trans linked)

theorem rooted (grows : recovery.Grows later) (wellFormed : recovery.WellFormed) :
    ∃ bucket, later.bucket? 0 = some bucket ∧ bucket.parent = none := by
  obtain ⟨root, opened, uncalled⟩ := wellFormed.rooted
  obtain ⟨grown, isGrown, sameParent⟩ := grows 0 root opened
  exact ⟨grown, isGrown, sameParent.trans uncalled⟩

end Grows

theorem Reached.exists_bucket {index : Nat} (reached : recovery.Reached index) :
    ∃ bucket, recovery.bucket? index = some bucket := by
  cases reached with
  | root opened _ => exact ⟨_, opened⟩
  | called _ opened _ => exact ⟨_, opened⟩

/-- Nothing is called by itself. -/
theorem Reached.parent_ne {index : Nat} (reached : recovery.Reached index) {bucket : Bucket}
    (opened : recovery.bucket? index = some bucket) : bucket.parent ≠ some index := by
  induction reached generalizing bucket with
  | root rootOpened uncalled =>
      obtain rfl := Option.some.inj (rootOpened.symm.trans opened)
      rw [uncalled]
      exact nofun
  | @called parent index _ above calledOpened linked ih =>
      obtain rfl := Option.some.inj (calledOpened.symm.trans opened)
      rw [linked]
      rintro ⟨⟩
      exact ih opened linked

/-- Only buckets matter. -/
theorem WellFormed.of_buckets_eq (wellFormed : recovery.WellFormed)
    (same : later.buckets = recovery.buckets) : later.WellFormed ∧ recovery.Grows later := by
  have sameBucket : ∀ index, later.bucket? index = recovery.bucket? index := by
    intro index
    rw [bucket?, bucket?, same]
  have grows : recovery.Grows later := by
    intro index bucket opened
    exact ⟨bucket, (sameBucket index).trans opened, rfl⟩
  refine ⟨⟨grows.rooted wellFormed, ?_, ?_⟩, grows⟩
  · intro index bucket opened
    exact grows.reached (wellFormed.reached index bucket ((sameBucket index).symm.trans opened))
  · intro index bucket opened
    exact wellFormed.drawable index bucket ((sameBucket index).symm.trans opened)

end Recovery

namespace Execution

theorem faceOf_drawable {points : Array (Option FixedVector)} {polygon : Polygon} {face : Face}
    (enough : 3 ≤ polygon.corners.length)
    (painted : ∀ corner ∈ polygon.corners, corner.uv.isSome = polygon.surface.isTextured)
    (made : faceOf points position polygon = .ok face) : face.Drawable := by
  rw [faceOf, bind_eq_ok] at made
  obtain ⟨vertices, placed, made⟩ := made
  obtain rfl := pure_eq_ok.mp made
  have related := mapM_eq_ok.mp placed
  refine ⟨by rw [Face.size, ← related.length_eq]; exact enough, ?_⟩
  intro vertex member
  obtain ⟨index, inRange, rfl⟩ := List.mem_iff_getElem.mp member
  have isCorner : index < polygon.corners.length := by
    rw [related.length_eq]
    exact inRange
  have here := (List.forall₂_iff_get.mp related).2 index isCorner inRange
  rw [List.get_eq_getElem, List.get_eq_getElem] at here
  rw [uv_of_vertexOf here]
  exact painted _ (List.getElem_mem isCorner)

/-- However an execution for some open submodels ends, it keeps the buckets well-formed. -/
def Keeps (submodels : List Nat) (execution : Execution Unit) : Prop :=
  ∀ recovery : Recovery, recovery.WellFormed →
    (∀ submodel ∈ submodels, (recovery.bucket? submodel).isSome) →
      (leftover (execution.run recovery)).WellFormed ∧
        recovery.Grows (leftover (execution.run recovery))

namespace Keeps

variable {submodels : List Nat}

theorem nothing : Keeps submodels (pure ()) :=
  fun recovery wellFormed _ => ⟨wellFormed, .refl recovery⟩

theorem failing (cause : FormatError) : Keeps submodels (fail cause) :=
  fun recovery wellFormed _ => ⟨wellFormed, .refl recovery⟩

theorem weaken {fewer : List Nat} {execution : Execution Unit} (keeps : Keeps fewer execution)
    (subset : fewer ⊆ submodels) : Keeps submodels execution :=
  fun recovery wellFormed opened =>
    keeps recovery wellFormed fun submodel member => opened submodel (subset member)

theorem andThen {first second : Execution Unit} (firstKeeps : Keeps submodels first)
    (secondKeeps : Keeps submodels second) : Keeps submodels (do first; second) := by
  intro recovery wellFormed opened
  have kept := firstKeeps recovery wellFormed opened
  cases ran : first.run recovery with
  | error cause left =>
      rw [ran] at kept
      rw [run_bind_of_error ran]
      exact kept
  | ok nothing between =>
      rw [ran] at kept
      rw [run_bind_of_ok ran]
      obtain ⟨betweenWellFormed, grows⟩ := kept
      obtain ⟨resultWellFormed, growsLater⟩ :=
        secondKeeps between betweenWellFormed fun submodel member =>
          grows.isSome (opened submodel member)
      exact ⟨resultWellFormed, grows.trans growsLater⟩

theorem define (first : Nat) (positions : List FixedVector) :
    Keeps submodels (Execution.define first positions) :=
  fun _ wellFormed _ => wellFormed.of_buckets_eq rfl

theorem draw {polygon : Polygon} (enough : 3 ≤ polygon.corners.length)
    (painted : ∀ corner ∈ polygon.corners, corner.uv.isSome = polygon.surface.isTextured) :
    Keeps [submodel] (Execution.draw submodel position polygon) := by
  intro recovery wellFormed opened
  rw [Execution.draw, run_get_bind]
  cases made : faceOf recovery.points position polygon with
  | error cause => exact failing cause recovery wellFormed opened
  | ok face =>
      obtain ⟨bucket, isBucket⟩ := Option.isSome_iff_exists.mp (opened submodel (by simp))
      obtain ⟨result, added, draws⟩ := addFace_draws isBucket face
      simp only [added, leftover]
      have grows : recovery.Grows result := by
        intro index found isFound
        rw [draws.bucket_eq]
        split_ifs with here
        · subst here
          obtain rfl := Option.some.inj (isBucket.symm.trans isFound)
          exact ⟨_, rfl, rfl⟩
        · exact ⟨found, isFound, rfl⟩
      refine ⟨⟨grows.rooted wellFormed, ?_, ?_⟩, grows⟩
      · intro index found isFound
        rw [draws.bucket_eq] at isFound
        split_ifs at isFound with here
        · exact grows.reached (here ▸ wellFormed.reached submodel bucket isBucket)
        · exact grows.reached (wellFormed.reached index found isFound)
      · intro index found isFound drawn member
        rw [draws.bucket_eq] at isFound
        split_ifs at isFound with here
        · obtain rfl := Option.some.inj isFound
          have whole : drawn ∈ bucket.faces.toList ++ [face] := by
            simpa [Bucket.add] using member
          rcases List.mem_append.mp whole with before | last
          · exact wellFormed.drawable submodel bucket isBucket drawn before
          · rw [List.mem_singleton.mp last]
            exact faceOf_drawable enough painted made
        · exact wellFormed.drawable index found isFound drawn member

/-- What is called becomes open, and then it is kept with its caller. -/
theorem call {callee : Nat} {bucket : Bucket} {execution : Execution Unit}
    (linked : bucket.parent = some submodel) (undrawn : bucket.faces = #[])
    (keeps : Keeps [callee, submodel] execution) :
    Keeps [submodel] (do openBucket callee bucket; execution) := by
  intro recovery wellFormed opened
  cases known : recovery.bucket? callee with
  | some found =>
      have refused : (openBucket callee bucket).run recovery =
          .error (.format (.duplicateSubmodel callee)) recovery := by
        have isOpen : (recovery.buckets[callee]?).join = some found := known
        rw [openBucket, run_get_bind, isOpen]
        rfl
      rw [run_bind_of_error refused]
      exact ⟨wellFormed, .refl recovery⟩
  | none =>
      obtain ⟨begun, ran, _, _, bucket_eq⟩ := opened_run known bucket
      have opens : (openBucket callee bucket).run recovery = .ok () begun := ran
      have calleeOpened : begun.bucket? callee = some bucket := by
        rw [bucket_eq, if_pos rfl]
      have grows : recovery.Grows begun := by
        intro index found isFound
        refine ⟨found, ?_, rfl⟩
        rw [bucket_eq, if_neg, isFound]
        rintro rfl
        rw [known] at isFound
        cases isFound
      have callerOpened := opened submodel (by simp)
      obtain ⟨caller, isCaller⟩ := Option.isSome_iff_exists.mp callerOpened
      have callerReached := grows.reached (wellFormed.reached submodel caller isCaller)
      have begunWellFormed : begun.WellFormed := by
        refine ⟨grows.rooted wellFormed, ?_, ?_⟩
        · intro index found isFound
          by_cases here : index = callee
          · subst here
            exact .called callerReached calleeOpened linked
          · rw [bucket_eq, if_neg here] at isFound
            exact grows.reached (wellFormed.reached index found isFound)
        · intro index found isFound face member
          rw [bucket_eq] at isFound
          split_ifs at isFound with here
          · obtain rfl := Option.some.inj isFound
            simp [undrawn] at member
          · exact wellFormed.drawable index found isFound face member
      rw [run_bind_of_ok opens]
      obtain ⟨resultWellFormed, growsLater⟩ := keeps begun begunWellFormed (by
        simp [calleeOpened, grows.isSome callerOpened])
      exact ⟨resultWellFormed, grows.trans growsLater⟩

end Keeps

/-- Executing code for an open submodel keeps the buckets well-formed. -/
theorem walk_keeps (data : Array UInt8) (levels submodel position : Nat) :
    Keeps [submodel] (walk data levels submodel position) := by
  revert levels submodel position
  refine walk_induction data ?_
  intro levels submodel position onward deeper recovery wellFormed opened
  rcases walk_cases data levels submodel position recovery with
    ⟨cause, stopped⟩ | ⟨cause, _, stopped⟩ | ⟨_, instruction, read, follows⟩
  · rw [stopped]
    exact ⟨wellFormed, .refl recovery⟩
  · rw [stopped]
    exact wellFormed.of_buckets_eq rfl
  · have inside := inside_of_at read
    have next : Keeps [submodel]
        (walk data levels submodel (position + instruction.size)) :=
      onward _ (by have := instruction.size_pos; omega) (by omega)
    obtain ⟨markedWellFormed, markedGrows⟩ :
        (recovery.mark position).WellFormed ∧ recovery.Grows (recovery.mark position) :=
      wellFormed.of_buckets_eq rfl
    have followKeeps : Keeps [submodel] (follow data levels submodel position instruction) := by
      obtain ⟨⟨fields, _⟩, legal⟩ := Instruction.at_eq_ok_iff.mp read
      cases fields with
      | stop => exact .nothing
      | @points first positions => exact (Keeps.define first positions).andThen next
      | @draw polygon _ _ _ _ _ _ painted => exact (Keeps.draw legal painted).andThen next
      | @sort front back =>
          cases levels with
          | zero => exact .failing _
          | succ nested =>
              have branch : ∀ start, Keeps [submodel] (walk data nested submodel start) :=
                fun start => deeper nested submodel start (Nat.lt_succ_self _)
              exact (branch front).andThen ((branch back).andThen next)
      | @call callee offset target =>
          refine Keeps.call rfl rfl ?_
          cases levels with
          | zero => exact .failing _
          | succ nested =>
              have calleeKeeps : Keeps [callee] (walk data nested callee target) :=
                deeper nested callee target (Nat.lt_succ_self _)
              exact (calleeKeeps.weaken (by simp)).andThen (next.weaken (by simp))
    rw [follows]
    obtain ⟨resultWellFormed, grows⟩ := followKeeps _ markedWellFormed
      fun index member => markedGrows.isSome (opened index member)
    exact ⟨resultWellFormed, markedGrows.trans grows⟩

/-- What is known after executing the root from some entries in turn, whether or not the
executions end well. -/
def afterEntries (data : Array UInt8) (recovery : Recovery) (entries : List Nat) : Recovery :=
  entries.foldl (fun known entry => leftover ((fromEntry data entry).run known)) recovery

/-- Whatever was recovered before, executing the root leaves well-formed buckets. -/
theorem fromEntry_wellFormed (data : Array UInt8) (entry : Nat) (recovery : Recovery) :
    (leftover ((fromEntry data entry).run recovery)).WellFormed := by
  have bucket_eq : ∀ index, Recovery.bucket?
      { recovery with buckets := #[some { entry := entry }] } index =
        if index = 0 then some { entry := entry } else none := by
    intro index
    cases index <;> rfl
  rw [fromEntry_run]
  refine (walk_keeps data nestingLimit 0 entry _ ⟨⟨_, bucket_eq 0, rfl⟩, ?_, ?_⟩ ?_).1
  · intro index bucket opened
    rw [bucket_eq] at opened
    split_ifs at opened with isRoot
    rw [isRoot]
    exact .root (bucket_eq 0) rfl
  · intro index bucket opened face member
    rw [bucket_eq] at opened
    split_ifs at opened
    obtain rfl := Option.some.inj opened
    cases member
  · intro index member
    rw [List.mem_singleton.mp member, bucket_eq]
    rfl

theorem afterEntries_wellFormed (data : Array UInt8) (recovery : Recovery)
    (earlier : List Nat) (last : Nat) :
    (afterEntries data recovery (earlier ++ [last])).WellFormed := by
  rw [afterEntries, List.foldl_append]
  exact fromEntry_wellFormed data last _

end Execution

end PaintOrder.Code
