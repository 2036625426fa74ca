import PaintOrder.Proofs.Code.BackToBack
import PaintOrder.Proofs.Model.Layout

/-!
# Code of submodels inside code

The code of a called submodel is a piece of the code that calls it, behind the call.  What a
piece of code draws is drawn by itself or by one of the submodels that it calls, and the
point blocks of a piece are those of its parts, in the order in which they lie.
-/

namespace PaintOrder.Code

namespace Assembly

/-- Code at an address calls a submodel, whose own code stands at an entry. -/
inductive Calls : Assembly → (address submodel entry : Nat) → Assembly → Prop
  | points {first address submodel entry : Nat} {positions : List FixedVector}
      {rest callee : Assembly}
      (behind : rest.Calls (address + pointsSize positions.length) submodel entry callee) :
      Calls (.points first positions rest) address submodel entry callee
  | draw {polygon : Polygon} {address submodel entry : Nat} {rest callee : Assembly}
      (behind : rest.Calls
        (address + polygonSize polygon.corners.length polygon.surface.isTextured) submodel entry
          callee) :
      Calls (.draw polygon rest) address submodel entry callee
  | front {plane : Plane} {address submodel entry : Nat} {front back callee : Assembly}
      (inFront : front.Calls (address + frontJump) submodel entry callee) :
      Calls (.sort plane front back) address submodel entry callee
  | back {plane : Plane} {address submodel entry : Nat} {front back callee : Assembly}
      (behind : back.Calls (address + (frontJump + front.code.length)) submodel entry callee) :
      Calls (.sort plane front back) address submodel entry callee
  | here {address submodel : Nat} {offset : FixedVector} {callee : Assembly} :
      Calls (.call submodel offset callee) address submodel (address + callJump) callee
  | nested {address caller submodel entry : Nat} {offset : FixedVector}
      {code callee : Assembly} (inside : code.Calls (address + callJump) submodel entry callee) :
      Calls (.call caller offset code) address submodel entry callee

namespace Calls

variable {data : Array UInt8} {code callee : Assembly} {address submodel entry : Nat}

/-- The code of a called submodel fits if the code that calls it does. -/
theorem fits (calls : code.Calls address submodel entry callee) (fit : code.Fits) :
    callee.Fits := by
  induction calls with
  | points _ ih => exact ih fit.2.2
  | draw _ ih => exact ih fit.2
  | front _ ih => exact ih fit.2.1
  | back _ ih => exact ih fit.2.2
  | here => exact fit.2.2
  | nested _ ih => exact ih fit.2.2

/-- The code of a called submodel stands at its entry. -/
theorem holds (calls : code.Calls address submodel entry callee) (fit : code.Fits)
    (whole : Holds data address code.code) : Holds data entry callee.code := by
  induction calls with
  | points _ ih =>
      rw [Assembly.code, holds_append, length_pointsBytes] at whole
      exact ih fit.2.2 whole.2
  | draw _ ih =>
      rw [Assembly.code, holds_append, fit.1.length_bytes] at whole
      exact ih fit.2 whole.2
  | front _ ih => exact ih fit.2.1 (holds_sort whole).2.2.1
  | back _ ih => exact ih fit.2.2 (holds_sort whole).2.2.2
  | here => exact (holds_call whole).2.2
  | nested _ ih => exact ih fit.2.2 (holds_call whole).2.2

theorem lt_entry (calls : code.Calls address submodel entry callee) : address < entry := by
  induction calls with
  | points _ ih => omega
  | draw _ ih => omega
  | front _ ih => omega
  | back _ ih => omega
  | here =>
      rw [callJump, callSize]
      omega
  | nested _ ih => omega

/-- What a called submodel calls is called by the whole. -/
theorem trans {deeper : Assembly} {other place : Nat}
    (calls : code.Calls address submodel entry callee)
    (further : callee.Calls entry other place deeper) :
    code.Calls address other place deeper := by
  induction calls with
  | points _ ih => exact .points (ih further)
  | draw _ ih => exact .draw (ih further)
  | front _ ih => exact .front (ih further)
  | back _ ih => exact .back (ih further)
  | here => exact .nested further
  | nested _ ih => exact .nested (ih further)

theorem mem_entries (calls : code.Calls address submodel entry callee) :
    (submodel, entry) ∈ code.entries address := by
  induction calls with
  | points _ ih => exact ih
  | draw _ ih => exact ih
  | front _ ih => exact List.mem_append_left _ ih
  | back _ ih => exact List.mem_append_right _ ih
  | here => exact List.mem_cons_self
  | nested _ ih => exact List.mem_cons_of_mem _ ih

end Calls

theorem exists_calls_of_mem_entries {code : Assembly} {address submodel entry : Nat}
    (member : (submodel, entry) ∈ code.entries address) :
    ∃ callee, code.Calls address submodel entry callee := by
  induction code generalizing address with
  | stop => cases member
  | points first positions rest ih =>
      obtain ⟨callee, calls⟩ := ih member
      exact ⟨callee, .points calls⟩
  | draw polygon rest ih =>
      obtain ⟨callee, calls⟩ := ih member
      exact ⟨callee, .draw calls⟩
  | sort plane front back frontIH backIH =>
      rcases List.mem_append.mp member with inFront | behind
      · obtain ⟨callee, calls⟩ := frontIH inFront
        exact ⟨callee, .front calls⟩
      · obtain ⟨callee, calls⟩ := backIH behind
        exact ⟨callee, .back calls⟩
  | call caller offset code ih =>
      rcases List.mem_cons.mp member with here | inside
      · obtain ⟨rfl, rfl⟩ := Prod.mk.inj here
        exact ⟨code, .here⟩
      · obtain ⟨callee, calls⟩ := ih inside
        exact ⟨callee, .nested calls⟩

/-- To prove something of the code of a partition and its faces, follow the tree. -/
theorem ofPartition_induction {table : VertexTable} {motive : Assembly → List Face → Prop}
    (partition : Partition) (stop : motive .stop [])
    (draw : ∀ face code faces, motive code faces →
      motive (.draw (Emission.polygonOf table face) code) (face :: faces))
    (sort : ∀ plane front back frontFaces backFaces, motive front frontFaces →
      motive back backFaces → motive (.sort plane front back) (frontFaces ++ backFaces)) :
    motive (ofPartition table partition) partition.faces := by
  have leaf : ∀ faces, motive (ofFaces table faces) faces := by
    intro faces
    induction faces with
    | nil => exact stop
    | cons face rest ih => exact draw face _ rest ih
  have trees : ∀ tree : Tree, motive (ofTree table tree) tree.faces := by
    intro tree
    induction tree with
    | leaf faces => exact leaf faces
    | split plane front back frontIH backIH => exact sort plane _ _ _ _ frontIH backIH
  rw [ofPartition, Partition.faces]
  cases partition.root? with
  | none => exact stop
  | some tree => exact trees tree

section Polygons

/-- The polygons that a piece of code draws itself, outside of the submodels that it calls. -/
def ownPolygons : Assembly → List Polygon
  | stop => []
  | points _ _ rest => rest.ownPolygons
  | draw polygon rest => polygon :: rest.ownPolygons
  | sort _ front back => front.ownPolygons ++ back.ownPolygons
  | call .. => []

theorem ownPolygons_ofPartition (table : VertexTable) (partition : Partition) :
    (ofPartition table partition).ownPolygons =
      partition.faces.map (Emission.polygonOf table) := by
  apply ofPartition_induction
    (motive := fun code faces => code.ownPolygons = faces.map (Emission.polygonOf table))
  case stop => rfl
  case draw =>
    intro face code faces ih
    rw [ownPolygons, ih, List.map_cons]
  case sort =>
    intro plane front back frontFaces backFaces frontIH backIH
    rw [ownPolygons, frontIH, backIH, List.map_append]

/-- Whatever is drawn for a submodel is among the polygons of its own code. -/
theorem mem_ownPolygons_of_draws {code : Assembly} {caller address submodel position : Nat}
    {polygon : Polygon}
    (draws : Event.draw submodel position polygon ∈
      (code.program address).events caller address) :
    (submodel = caller ∧ polygon ∈ code.ownPolygons) ∨
      ∃ entry callee, code.Calls address submodel entry callee ∧
        polygon ∈ callee.ownPolygons := by
  induction code generalizing caller address with
  | stop => cases draws
  | points first positions rest ih =>
      rcases List.mem_cons.mp draws with ⟨⟨⟩⟩ | later
      exact (ih later).imp_right fun ⟨entry, callee, calls, own⟩ =>
        ⟨entry, callee, .points calls, own⟩
  | draw drawn rest ih =>
      rcases List.mem_cons.mp draws with ⟨⟨⟩⟩ | later
      · exact .inl ⟨rfl, List.mem_cons_self⟩
      · rcases ih later with ⟨same, own⟩ | ⟨entry, callee, calls, own⟩
        · exact .inl ⟨same, List.mem_cons_of_mem _ own⟩
        · exact .inr ⟨entry, callee, .draw calls, own⟩
  | sort plane front back frontIH backIH =>
      rw [sort_events, List.mem_append] at draws
      rcases draws with inFront | behind
      · rcases frontIH inFront with ⟨same, own⟩ | ⟨entry, callee, calls, own⟩
        · exact .inl ⟨same, List.mem_append_left _ own⟩
        · exact .inr ⟨entry, callee, .front calls, own⟩
      · rcases backIH behind with ⟨same, own⟩ | ⟨entry, callee, calls, own⟩
        · exact .inl ⟨same, List.mem_append_right _ own⟩
        · exact .inr ⟨entry, callee, .back calls, own⟩
  | call called offset code ih =>
      rw [call_events, List.mem_cons] at draws
      rcases draws with ⟨⟨⟩⟩ | inside
      rcases ih inside with ⟨rfl, own⟩ | ⟨entry, callee, calls, own⟩
      · exact .inr ⟨_, code, .here, own⟩
      · exact .inr ⟨entry, callee, .nested calls, own⟩

end Polygons

section Blocks

/-- The point blocks of a piece of code, in the order in which they lie. -/
def blocks : Assembly → List (Nat × List FixedVector)
  | stop => []
  | points first positions rest => (first, positions) :: rest.blocks
  | draw _ rest => rest.blocks
  | sort _ front back => front.blocks ++ back.blocks
  | call _ _ callee => callee.blocks

theorem blocks_ofPartition (table : VertexTable) (partition : Partition) :
    (ofPartition table partition).blocks = [] := by
  apply ofPartition_induction (motive := fun code _ => code.blocks = [])
  case stop => rfl
  case draw =>
    intro face code faces ih
    exact ih
  case sort =>
    intro plane front back frontFaces backFaces frontIH backIH
    rw [blocks, frontIH, backIH, List.append_nil]

/-- The points of a piece of code stand as the compiler writes them. -/
theorem holds_points {data : Array UInt8} {code : Assembly} {address position first : Nat}
    {positions : List FixedVector} (fits : code.Fits) (holds : Holds data address code.code)
    (listed : (position, .points first positions) ∈ code.instructions address) :
    Holds data position (pointsBytes first positions) := by
  induction code generalizing address with
  | stop => simp [instructions] at listed
  | points base defined rest ih =>
      rw [Assembly.code, holds_append, length_pointsBytes] at holds
      rcases List.mem_cons.mp listed with ⟨⟨⟩⟩ | behind
      · exact holds.1
      · exact ih fits.2.2 holds.2 behind
  | draw polygon rest ih =>
      rw [Assembly.code, holds_append, fits.1.length_bytes] at holds
      rcases List.mem_cons.mp listed with ⟨⟨⟩⟩ | behind
      exact ih fits.2 holds.2 behind
  | sort plane front back frontIH backIH =>
      obtain ⟨_, _, frontHolds, backHolds⟩ := holds_sort holds
      rcases List.mem_cons.mp listed with ⟨⟨⟩⟩ | later
      rcases List.mem_cons.mp later with ⟨⟨⟩⟩ | branch
      rcases List.mem_append.mp branch with inFront | behind
      · exact frontIH fits.2.1 frontHolds inFront
      · exact backIH fits.2.2 backHolds behind
  | call submodel offset callee ih =>
      rcases List.mem_cons.mp listed with ⟨⟨⟩⟩ | later
      rcases List.mem_cons.mp later with ⟨⟨⟩⟩ | inside
      exact ih fits.2.2 (holds_call holds).2.2 inside

end Blocks

end Assembly

/-- A block of points begins with the opcode of blocks that number from a first one on. -/
theorem holds_pointsFrom {data : Array UInt8} {position first : Nat}
    {positions : List FixedVector} (holds : Holds data position (pointsBytes first positions)) :
    Holds data position (wordBytes Opcode.pointsFrom.word) := by
  simp only [pointsBytes, holds_append] at holds
  exact holds.1.1.1.1

/-- The point blocks among some instructions. -/
def pointBlocks (instructions : List (Nat × Instruction)) : List (Nat × List FixedVector) :=
  instructions.filterMap fun entry =>
    match entry.2 with
    | .points first positions => some (first, positions)
    | .stop | .draw _ | .sort .. | .call .. => none

theorem pointBlocks_instructions (code : Assembly) (address : Nat) :
    pointBlocks (code.instructions address) = code.blocks := by
  induction code generalizing address with
  | stop => rfl
  | points first positions rest ih => exact congrArg ((first, positions) :: ·) (ih _)
  | draw polygon rest ih => exact ih _
  | sort plane front back frontIH backIH =>
      calc
        pointBlocks ((Assembly.sort plane front back).instructions address) =
            pointBlocks (front.instructions (address + Assembly.frontJump) ++
              back.instructions (address + (Assembly.frontJump + front.code.length))) := rfl
        _ = front.blocks ++ back.blocks := by
            rw [← frontIH, ← backIH]
            exact List.filterMap_append
  | call submodel offset callee ih => exact ih _

/-- Blocks number their points one after the other, from a start to before a finish, and no
block has a point twice. -/
def Consecutive : Nat → List (Nat × List FixedVector) → Nat → Prop
  | start, [], finish => start = finish
  | start, (first, positions) :: rest, finish =>
      first = start ∧ positions.Nodup ∧ Consecutive (first + positions.length) rest finish

theorem Consecutive.append {start middle finish : Nat}
    {blocks more : List (Nat × List FixedVector)} (first : Consecutive start blocks middle)
    (second : Consecutive middle more finish) : Consecutive start (blocks ++ more) finish := by
  induction blocks generalizing start with
  | nil =>
      obtain rfl : start = middle := first
      exact second
  | cons block rest ih =>
      obtain ⟨here, distinct, later⟩ := first
      exact ⟨here, distinct, ih later⟩

end PaintOrder.Code
