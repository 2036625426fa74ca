import PaintOrder.Proofs.Code.BackToBack
import PaintOrder.Proofs.Code.Trees
import PaintOrder.Proofs.Partition.Fragments

/-!
# Jumps that the compiler fills in

The front branch of a sort starts right behind the stop that follows the sort, and so does a
submodel behind its call: these two distances are constants.  Only the way to a back branch
varies, and where it leads an instruction starts.
-/

namespace PaintOrder.Code

/-- Where the normal stands inside a sort. -/
def sortNormalField : Nat := 4

/-- A sort has a normal that is not zero, its front branch starts behind the sort and a stop,
and its back branch starts further on, at one of the given places. -/
structure SortLinked (data : Array UInt8) (starts : List Nat) (position : Nat) : Prop where
  normal : ∃ normal, FixedVector.readAt data (position + sortNormalField) = .ok normal ∧
    normal.isZero = false
  front : signedWordAt data (position + sortFrontField) = .ok 34
  back : ∃ (offset : Int16) (target : Nat),
    signedWordAt data (position + sortBackField) = .ok offset ∧ 34 < offset.toInt ∧
      (target : Int) = position + offset.toInt ∧ target ∈ starts ∧ target < data.size

/-- The fields of an instruction are linked as the compiler does it. -/
def Linked (data : Array UInt8) (starts : List Nat) : Nat × Instruction → Prop
  | (position, .sort ..) => SortLinked data starts position
  | (position, .call ..) => signedWordAt data (position + callJumpField) = .ok 22
  | (_, .stop) | (_, .points ..) | (_, .draw _) => True

/-- The fields stand in the bytes of a sort. -/
theorem sortLinked_of_holds {data : Array UInt8} {starts : List Nat} {position backJump : Nat}
    {plane : Plane} (directed : plane.isDegenerate = false) (fits : backJump ≤ maxWord)
    (beyond : Assembly.frontJump < backJump)
    (holds : Holds data position
      (sortBytes plane (numberWord backJump) (numberWord Assembly.frontJump)))
    (isStart : position + backJump ∈ starts) (inside : position + backJump < data.size) :
    SortLinked data starts position := by
  simp only [sortBytes, holds_append, List.length_append, length_wordBytes,
    length_signedWordBytes, length_vector_bytes, FixedVector.byteSize] at holds
  obtain ⟨⟨⟨⟨⟨_, _⟩, normalHolds⟩, _⟩, backHolds⟩, frontHolds⟩ := holds
  refine ⟨⟨plane.normal, vector_readAt_eq_ok.mpr normalHolds, directed⟩,
    signedWordAt_eq_ok.mpr frontHolds, numberWord backJump, position + backJump,
    signedWordAt_eq_ok.mpr backHolds, ?_, ?_, isStart, inside⟩
  · rw [toInt_numberWord fits]
    exact Int.ofNat_lt.mpr beyond
  · rw [toInt_numberWord fits, Int.natCast_add]

namespace Assembly

/-- The planes of all sorts have a direction. -/
def Directed : Assembly → Prop
  | stop => True
  | points _ _ rest => rest.Directed
  | draw _ rest => rest.Directed
  | sort plane front back => plane.isDegenerate = false ∧ front.Directed ∧ back.Directed
  | call _ _ callee => callee.Directed

theorem ofPartition_directed {table : VertexTable} {partition : Partition}
    (directed : ∀ tree, partition.root? = some tree →
      ∀ plane ∈ tree.planes, plane.isDegenerate = false) :
    (ofPartition table partition).Directed := by
  have leaf : ∀ faces, (ofFaces table faces).Directed := by
    intro faces
    induction faces with
    | nil => trivial
    | cons face rest ih => exact ih
  have trees : ∀ tree : Tree, (∀ plane ∈ tree.planes, plane.isDegenerate = false) →
      (ofTree table tree).Directed := by
    intro tree
    induction tree with
    | leaf faces => exact fun _ => leaf faces
    | split plane front back frontIH backIH =>
        intro each
        simp only [Tree.planes, List.forall_mem_cons, List.forall_mem_append] at each
        exact ⟨each.1, frontIH each.2.1, backIH each.2.2⟩
  rw [ofPartition]
  cases rooted : partition.root? with
  | none => trivial
  | some tree => exact trees tree (directed tree rooted)

/-- Wherever a piece of code stands, its instructions are linked. -/
theorem linked {data : Array UInt8} {starts : List Nat} {assembly : Assembly}
    (fits : assembly.Fits) (directed : assembly.Directed) {address : Nat}
    (holds : Holds data address assembly.code)
    (among : ∀ place ∈ (assembly.instructions address).map Prod.fst, place ∈ starts) :
    ∀ entry ∈ assembly.instructions address, Linked data starts entry := by
  induction assembly generalizing address with
  | stop => exact List.forall_mem_singleton.mpr trivial
  | points first positions rest ih =>
      rw [code, holds_append, length_pointsBytes] at holds
      rw [instructions, List.map_cons, List.forall_mem_cons] at among
      exact List.forall_mem_cons.mpr ⟨trivial, ih fits.2.2 directed holds.2 among.2⟩
  | draw polygon rest ih =>
      rw [code, holds_append, fits.1.length_bytes] at holds
      rw [instructions, List.map_cons, List.forall_mem_cons] at among
      exact List.forall_mem_cons.mpr ⟨trivial, ih fits.2 directed holds.2 among.2⟩
  | sort plane front back frontIH backIH =>
      obtain ⟨jumpFits, frontFits, backFits⟩ := fits
      obtain ⟨planeDirected, frontDirected, backDirected⟩ := directed
      obtain ⟨sortHolds, _, frontHolds, backHolds⟩ := holds_sort holds
      simp only [instructions, List.map_cons, List.map_append, List.forall_mem_cons,
        List.forall_mem_append] at among ⊢
      obtain ⟨_, _, frontAmong, backAmong⟩ := among
      have inside := size_le_of_holds backHolds
      have frontPositive := front.code_length_pos
      have backPositive := back.code_length_pos
      refine ⟨?_, trivial, frontIH frontFits frontDirected frontHolds frontAmong,
        backIH backFits backDirected backHolds backAmong⟩
      exact sortLinked_of_holds planeDirected jumpFits (by omega) sortHolds
        (backAmong _ (back.start_mem _)) (by omega)
  | call submodel offset callee ih =>
      obtain ⟨_, _, calleeFits⟩ := fits
      obtain ⟨callHolds, _, calleeHolds⟩ := holds_call holds
      simp only [instructions, List.map_cons, List.forall_mem_cons] at among ⊢
      obtain ⟨_, _, calleeAmong⟩ := among
      refine ⟨?_, trivial, ih calleeFits directed calleeHolds calleeAmong⟩
      simp only [callBytes, holds_append, List.length_append, length_wordBytes,
        length_signedWordBytes, length_vector_bytes, FixedVector.byteSize] at callHolds
      exact signedWordAt_eq_ok.mpr callHolds.1.2

end Assembly

end PaintOrder.Code
