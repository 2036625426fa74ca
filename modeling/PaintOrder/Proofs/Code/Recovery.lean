import PaintOrder.Proofs.Code.Trees

/-!
# What events recover

Of what an execution has found so far, only two things matter: the point that each vertex
number stands for and the bucket of each submodel.  Every event that is possible changes
them in one place.  Drawing the code of a partition adds its faces, in the order of a walk,
to the bucket of the submodel for which it is drawn.
-/

namespace PaintOrder.Code

namespace Recovery

/-- The point that a vertex number stands for. -/
def point? (recovery : Recovery) (number : Nat) : Option FixedVector :=
  (recovery.points[number]?).join

/-- What is known of a submodel. -/
def bucket? (recovery : Recovery) (submodel : Nat) : Option Bucket :=
  (recovery.buckets[submodel]?).join

end Recovery

def Bucket.add (bucket : Bucket) (faces : List Face) : Bucket :=
  { bucket with faces := bucket.faces ++ faces }

theorem Bucket.add_nil (bucket : Bucket) : bucket.add [] = bucket := by
  simp [Bucket.add]

theorem Bucket.add_add (bucket : Bucket) (first second : List Face) :
    (bucket.add first).add second = bucket.add (first ++ second) := by
  have same : bucket.faces ++ first ++ second = bucket.faces ++ (first ++ second) := by
    apply Array.toList_inj.mp
    simp
  simp only [Bucket.add, same]

section Define

/-- Points are set one after the other, as far as there is room. -/
theorem getElem?_setPoints {points : Array (Option FixedVector)} {first : Nat}
    {positions : List FixedVector} (room : first + positions.length ≤ points.size)
    (number : Nat) :
    (Execution.setPoints points first positions)[number]? =
      if first ≤ number ∧ number < first + positions.length then
        some positions[number - first]?
      else points[number]? := by
  induction positions generalizing points first with
  | nil => simp [Execution.setPoints]
  | cons position rest ih =>
      rw [List.length_cons] at room
      rw [Execution.setPoints, ih (by rw [Array.size_setIfInBounds]; omega)]
      by_cases here : number = first
      · subst here
        rw [if_neg (by omega), if_pos (by simp),
          Array.getElem?_setIfInBounds_self_of_lt (by omega)]
        simp
      · by_cases later : first + 1 ≤ number ∧ number < first + 1 + rest.length
        · have shift : number - first = number - (first + 1) + 1 := by omega
          rw [if_pos later, if_pos (by simp; omega), shift, List.getElem?_cons_succ]
        · rw [if_neg later, if_neg (by simp; omega),
            Array.getElem?_setIfInBounds_ne (Ne.symm here)]

/-- Defining points gives every number in the run its point and changes nothing else. -/
theorem define_run (recovery : Recovery) (first : Nat) (positions : List FixedVector) :
    ∃ result, (Event.define first positions).perform.run recovery = .ok () result ∧
      result.buckets = recovery.buckets ∧
      ∀ number, result.point? number =
        if first ≤ number ∧ number < first + positions.length then positions[number - first]?
        else recovery.point? number := by
  refine ⟨_, rfl, rfl, ?_⟩
  intro number
  have room : first + positions.length ≤
      (Execution.extend recovery.points (first + positions.length)).size := by
    simp [Execution.extend]
    omega
  simp only [Recovery.point?]
  rw [getElem?_setPoints room]
  split_ifs with inside
  · rfl
  · exact join_getElem?_padded _ _ _

end Define

section Buckets

variable {recovery : Recovery} {submodel : Nat} {bucket : Bucket}

/-- A submodel that was not called gets its bucket. -/
theorem opened_run (closed : recovery.bucket? submodel = none) (bucket : Bucket) :
    ∃ result, (Event.opened submodel bucket).perform.run recovery = .ok () result ∧
      result.points = recovery.points ∧
      result.buckets.size = max recovery.buckets.size (submodel + 1) ∧
      ∀ index, result.bucket? index =
        if index = submodel then some bucket else recovery.bucket? index := by
  refine ⟨_, Event.perform_opened_eq_ok.mpr ⟨closed, rfl⟩, rfl, ?_, ?_⟩
  · simp
    omega
  · intro index
    simp only [Recovery.bucket?, Array.getElem?_setIfInBounds, Array.size_append,
      Array.size_replicate]
    by_cases here : index = submodel
    · subst here
      have room : index < recovery.buckets.size + (index + 1 - recovery.buckets.size) := by
        omega
      simp [room]
    · rw [if_neg (Ne.symm here), if_neg here, join_getElem?_padded]

end Buckets

/-- Numbers stand for the positions that a table gives them. -/
def Recovery.Knows (recovery : Recovery) (table : VertexTable) : Prop :=
  ∀ position index, table.index? position = some index →
    recovery.point? index = some position

section Drawing

variable {recovery : Recovery} {table : VertexTable} {submodel : Nat} {bucket : Bucket}

/-- A face is read back from its polygon. -/
theorem faceOf_polygonOf (known : recovery.Knows table) {face : Face}
    (numbered : ∀ vertex ∈ face.vertices, Emission.Numbered table vertex) (position : Nat) :
    Execution.faceOf recovery.points position (Emission.polygonOf table face) = .ok face := by
  have vertices : (face.vertices.map (Emission.cornerOf table)).mapM
      (Execution.vertexOf recovery.points position) = .ok face.vertices := by
    apply mapM_eq_ok.mpr
    rw [List.forall₂_map_left_iff, List.forall₂_same]
    intro vertex member
    obtain ⟨index, isIndex, fits⟩ := numbered vertex member
    have isPoint : (recovery.points[index]?).join = some vertex.position :=
      known vertex.position index isIndex
    have number := toInt_numberWord fits
    have notNegative : ¬numberWord index < 0 := by
      rw [Int16.lt_iff_toInt_lt, number]
      simp
    rw [Emission.cornerOf, isIndex, Execution.vertexOf]
    simp only [Option.getD_some, notNegative, if_false, number, Int.toNat_natCast, isPoint]
  rw [Execution.faceOf]
  simp only [Emission.polygonOf, vertices, ok_bind]
  rfl

/-- What drawing leaves: more faces in one bucket. -/
structure Draws (submodel : Nat) (bucket : Bucket) (faces : List Face)
    (recovery result : Recovery) : Prop where
  points : result.points = recovery.points
  size : result.buckets.size = recovery.buckets.size
  bucket_eq : ∀ index, result.bucket? index =
    if index = submodel then some (bucket.add faces) else recovery.bucket? index

namespace Draws

theorem nothing (opened : recovery.bucket? submodel = some bucket) :
    Draws submodel bucket [] recovery recovery := by
  refine ⟨rfl, rfl, ?_⟩
  intro index
  rw [Bucket.add_nil]
  split_ifs with here
  · rw [here, opened]
  · rfl

theorem trans {first second : List Face} {middle result : Recovery}
    (firstDraws : Draws submodel bucket first recovery middle)
    (secondDraws : Draws submodel (bucket.add first) second middle result) :
    Draws submodel bucket (first ++ second) recovery result := by
  refine ⟨?_, ?_, ?_⟩
  · rw [secondDraws.points, firstDraws.points]
  · rw [secondDraws.size, firstDraws.size]
  · intro index
    rw [secondDraws.bucket_eq, Bucket.add_add]
    split_ifs with here
    · rfl
    · rw [firstDraws.bucket_eq, if_neg here]

theorem opened {faces : List Face} {result : Recovery}
    (draws : Draws submodel bucket faces recovery result) :
    result.bucket? submodel = some (bucket.add faces) := by
  rw [draws.bucket_eq, if_pos rfl]

theorem knows {faces : List Face} {result : Recovery}
    (draws : Draws submodel bucket faces recovery result) (known : recovery.Knows table) :
    result.Knows table := by
  intro position index isIndex
  rw [Recovery.point?, draws.points]
  exact known position index isIndex

end Draws

theorem addFace_draws (opened : recovery.bucket? submodel = some bucket) (face : Face) :
    ∃ result, (Execution.addFace submodel face).run recovery = .ok () result ∧
      Draws submodel bucket [face] recovery result := by
  refine ⟨_, rfl, rfl, by simp, ?_⟩
  intro index
  rw [Recovery.bucket?] at opened
  simp only [Recovery.bucket?, Array.getElem?_modify]
  by_cases here : index = submodel
  · subst here
    rw [if_pos rfl, if_pos rfl]
    cases stored : recovery.buckets[index]? with
    | none =>
        rw [stored] at opened
        cases opened
    | some found =>
        rw [stored] at opened
        obtain rfl : found = some bucket := opened
        simp [Bucket.add]
  · rw [if_neg (Ne.symm here), if_neg here]

theorem ofFaces_draws {faces : List Face} (known : recovery.Knows table)
    (opened : recovery.bucket? submodel = some bucket)
    (writable : ∀ face ∈ faces, Emission.Writable table face) (address : Nat) :
    ∃ result, (Event.performAll (((Assembly.ofFaces table faces).program address).events
        submodel address)).run recovery = .ok () result ∧
      Draws submodel bucket faces recovery result := by
  induction faces generalizing recovery bucket address with
  | nil => exact ⟨recovery, rfl, .nothing opened⟩
  | cons face rest ih =>
      obtain ⟨middle, added, firstDraws⟩ := addFace_draws opened face
      have drawn : (Event.draw submodel address (Emission.polygonOf table face)).perform.run
          recovery = .ok () middle :=
        Event.perform_draw_eq_ok.mpr
          ⟨face, faceOf_polygonOf known (writable face (by simp)).numbered address, added⟩
      obtain ⟨result, performed, restDraws⟩ := ih (firstDraws.knows known) firstDraws.opened
        (fun other member => writable other (by simp [member])) _
      exact ⟨result, run_bind_eq_ok.mpr ⟨(), middle, drawn, performed⟩,
        firstDraws.trans restDraws⟩

theorem ofTree_draws {tree : Tree} (known : recovery.Knows table)
    (opened : recovery.bucket? submodel = some bucket)
    (writable : ∀ face ∈ tree.faces, Emission.Writable table face) (address : Nat) :
    ∃ result, (Event.performAll (((Assembly.ofTree table tree).program address).events
        submodel address)).run recovery = .ok () result ∧
      Draws submodel bucket tree.faces recovery result := by
  induction tree generalizing recovery bucket address with
  | leaf faces => exact ofFaces_draws known opened writable address
  | split plane front back frontIH backIH =>
      obtain ⟨middle, frontPerformed, frontDraws⟩ := frontIH known opened
        (fun face member => writable face (List.mem_append_left _ member))
        (address + Assembly.frontJump)
      obtain ⟨result, backPerformed, backDraws⟩ :=
        backIH (frontDraws.knows known) frontDraws.opened
          (fun face member => writable face (List.mem_append_right _ member))
          (address + (Assembly.frontJump + (Assembly.ofTree table front).code.length))
      refine ⟨result, ?_, frontDraws.trans backDraws⟩
      rw [Assembly.ofTree, Assembly.sort_events]
      exact Event.performAll_append_eq_ok.mpr ⟨middle, frontPerformed, backPerformed⟩

/-- The code of a partition draws its faces in the order of a walk. -/
theorem ofPartition_draws {partition : Partition} (known : recovery.Knows table)
    (opened : recovery.bucket? submodel = some bucket)
    (writable : ∀ face ∈ partition.faces, Emission.Writable table face) (address : Nat) :
    ∃ result, (Event.performAll (((Assembly.ofPartition table partition).program
        address).events submodel address)).run recovery = .ok () result ∧
      Draws submodel bucket partition.faces recovery result := by
  rw [Partition.faces] at writable ⊢
  rw [Assembly.ofPartition]
  cases rooted : partition.root? with
  | none => exact ⟨recovery, rfl, .nothing opened⟩
  | some tree =>
      rw [rooted] at writable
      exact ofTree_draws known opened writable address

end Drawing

end PaintOrder.Code
