import PaintOrder.Proofs.Code.Assembly
import PaintOrder.Proofs.Code.VertexTable
import PaintOrder.Proofs.Geometry.Polygon

/-!
# What the emitter writes

Every step of the emitter that succeeds appends the bytes of a piece of code and changes
nothing else.  Jumps are written as zero first; filling them in later only touches their own
two bytes.
-/

namespace PaintOrder.Code

namespace Emitter

def append (emitter : Emitter) (bytes : List UInt8) : Emitter :=
  { emitter with code := emitter.code ++ bytes }

@[simp] theorem append_toList (emitter : Emitter) (bytes : List UInt8) :
    (emitter.append bytes).code.toList = emitter.code.toList ++ bytes := by
  simp [append]

@[simp] theorem append_size (emitter : Emitter) (bytes : List UInt8) :
    (emitter.append bytes).code.size = emitter.code.size + bytes.length := by
  rw [← Array.length_toList, append_toList, List.length_append, Array.length_toList]

theorem append_append (emitter : Emitter) (first second : List UInt8) :
    (emitter.append first).append second = emitter.append (first ++ second) := by
  have same : emitter.code ++ first ++ second = emitter.code ++ (first ++ second) := by
    apply Array.toList_inj.mp
    simp
  simp only [append, same]

theorem append_nil (emitter : Emitter) : emitter.append [] = emitter := by
  simp [append]

@[simp] theorem append_nextVertex (emitter : Emitter) (bytes : List UInt8) :
    (emitter.append bytes).nextVertex = emitter.nextVertex := rfl

@[simp] theorem append_entries (emitter : Emitter) (bytes : List UInt8) :
    (emitter.append bytes).entries = emitter.entries := rfl

def record (emitter : Emitter) (nextVertex : Nat) (entries : Array Nat) : Emitter :=
  { emitter with nextVertex := nextVertex, entries := entries }

section Record

variable (emitter : Emitter) (nextVertex : Nat) (entries : Array Nat)

@[simp] theorem record_code : (emitter.record nextVertex entries).code = emitter.code := rfl

theorem append_record (bytes : List UInt8) :
    (emitter.append bytes).record nextVertex entries =
      (emitter.record nextVertex entries).append bytes := rfl

theorem record_record (laterVertex : Nat) (laterEntries : Array Nat) :
    (emitter.record nextVertex entries).record laterVertex laterEntries =
      emitter.record laterVertex laterEntries := rfl

end Record

end Emitter

namespace Emission

variable {emitter result : Emitter}

section Steps

theorem position_eq_ok {place : Nat} :
    position.run emitter = .ok place result ↔ place = emitter.code.size ∧ result = emitter := by
  constructor
  · rintro ⟨⟩
    exact ⟨rfl, rfl⟩
  · rintro ⟨rfl, rfl⟩
    rfl

theorem write_eq_ok {bytes : List UInt8} {nothing : Unit} :
    (write bytes).run emitter = .ok nothing result ↔ result = emitter.append bytes := by
  constructor
  · rintro ⟨⟩
    rfl
  · rintro rfl
    rfl

theorem writeWhen_eq_ok {condition : Prop} [Decidable condition] {bytes : List UInt8} :
    (if condition then write bytes else pure ()).run emitter = .ok () result ↔
      result = emitter.append (if condition then bytes else []) := by
  split_ifs with holds
  · exact write_eq_ok
  · rw [Emitter.append_nil]
    simp [EStateM.run, pure, EStateM.pure, eq_comm]

theorem narrow_eq_ok {number : Int} {overflow : CapacityError} {word : Int16} :
    (narrow number overflow).run emitter = .ok word result ↔
      signedWord? number = some word ∧ result = emitter := by
  rw [narrow]
  cases signedWord? number with
  | none => simp [run_throw_ne_ok]
  | some fitting => simp [EStateM.run, pure, EStateM.pure, eq_comm]

/-- A number that is not negative fits into a word up to the greatest one. -/
theorem narrow_nat_eq_ok {number : Nat} {overflow : CapacityError} {word : Int16} :
    (narrow number overflow).run emitter = .ok word result ↔
      number ≤ maxWord ∧ word = numberWord number ∧ result = emitter := by
  rw [narrow_eq_ok]
  by_cases fits : number ≤ maxWord
  · simp [signedWord?_eq_some fits, fits, eq_comm]
  · simp [signedWord?_eq_none (Nat.lt_of_not_le fits), fits]

theorem get_eq_ok {found : Emitter} :
    (get : Emission Emitter).run emitter = .ok found result ↔
      found = emitter ∧ result = emitter := by
  constructor
  · rintro ⟨⟩
    exact ⟨rfl, rfl⟩
  · rintro ⟨rfl, rfl⟩
    rfl

theorem lift_eq_ok {α : Type} {check : Except Error α} {value : α} :
    (liftM check : Emission α).run emitter = .ok value result ↔
      check = .ok value ∧ result = emitter := by
  cases check with
  | error cause =>
      constructor
      · rintro ⟨⟩
      · rintro ⟨⟨⟩, _⟩
  | ok found =>
      constructor
      · rintro ⟨⟩
        exact ⟨rfl, rfl⟩
      · rintro ⟨⟨⟩, rfl⟩
        rfl

theorem lift_structural_eq_ok {α : Type} {check : Except StructuralError α} {value : α} :
    (liftM check : Emission α).run emitter = .ok value result ↔
      check = .ok value ∧ result = emitter := by
  have lifted : (liftM check : Emission α) = liftM (check.mapError Error.structural) := rfl
  rw [lifted, lift_eq_ok, mapError_eq_ok]

theorem lift_capacity_eq_ok {α : Type} {check : Except CapacityError α} {value : α} :
    (liftM check : Emission α).run emitter = .ok value result ↔
      check = .ok value ∧ result = emitter := by
  have lifted : (liftM check : Emission α) = liftM (check.mapError Error.capacity) := rfl
  rw [lifted, lift_eq_ok, mapError_eq_ok]

theorem pure_eq_ok {α : Type} {given value : α} :
    (pure given : Emission α).run emitter = .ok value result ↔
      given = value ∧ result = emitter := by
  simp [EStateM.run, pure, EStateM.pure, eq_comm]

end Steps

section Polygons

/-- Steps that each append some bytes append them one after the other. -/
theorem forM_appends {α : Type} {step : α → Emission Unit} {bytes : α → List UInt8}
    {good : α → Prop} (each : ∀ element emitter result,
      (step element).run emitter = .ok () result →
        good element ∧ result = emitter.append (bytes element))
    {elements : List α} (ran : (elements.forM step).run emitter = .ok () result) :
    (∀ element ∈ elements, good element) ∧
      result = emitter.append (elements.flatMap bytes) := by
  induction elements generalizing emitter with
  | nil =>
      obtain ⟨_, rfl⟩ := pure_eq_ok.mp ran
      exact ⟨by simp, (Emitter.append_nil _).symm⟩
  | cons element rest ih =>
      obtain ⟨_, between, first, later⟩ := run_bind_eq_ok.mp ran
      obtain ⟨isGood, rfl⟩ := each element emitter between first
      obtain ⟨restGood, rfl⟩ := ih later
      refine ⟨?_, by rw [Emitter.append_append, List.flatMap_cons]⟩
      intro other member
      rcases List.mem_cons.mp member with rfl | inRest
      · exact isGood
      · exact restGood other inRest

/-- A vertex as a corner, with its number in a table. -/
def cornerOf (table : VertexTable) (vertex : Vertex) : Corner :=
  ⟨numberWord ((table.index? vertex.position).getD 0), vertex.uv⟩

def polygonOf (table : VertexTable) (face : Face) : Polygon :=
  ⟨face.vertices.map (cornerOf table), face.point, face.normal, face.surface⟩

/-- A vertex has a number in a table, and the number fits into a word. -/
def Numbered (table : VertexTable) (vertex : Vertex) : Prop :=
  ∃ index, table.index? vertex.position = some index ∧ index ≤ maxWord

theorem writeIndex_eq_ok {table : VertexTable} {vertex : Vertex}
    (ran : (writeIndex table vertex).run emitter = .ok () result) :
    Numbered table vertex ∧
      result = emitter.append (signedWordBytes (cornerOf table vertex).index) := by
  rw [writeIndex, run_bind_eq_ok] at ran
  obtain ⟨found, between, looked, ran⟩ := ran
  obtain ⟨isWord, rfl⟩ := lift_capacity_eq_ok.mp looked
  cases found with
  | none => exact absurd ran run_throw_ne_ok
  | some word =>
      obtain ⟨index, known, fits, rfl⟩ := VertexTable.word?_eq_some.mp isWord
      obtain rfl := write_eq_ok.mp ran
      refine ⟨⟨index, known, fits⟩, ?_⟩
      rw [cornerOf, known]
      rfl

theorem writePolygon_eq_ok {table : VertexTable} {face : Face}
    (ran : (writePolygon table face).run emitter = .ok () result) :
    face.size ≤ maxWord ∧ (∀ vertex ∈ face.vertices, Numbered table vertex) ∧
      result = emitter.append (polygonOf table face).bytes := by
  rw [writePolygon, run_bind_eq_ok] at ran
  obtain ⟨_, _, counted, ran⟩ := ran
  obtain ⟨fits, rfl, rfl⟩ := narrow_nat_eq_ok.mp counted
  rw [run_bind_eq_ok] at ran
  obtain ⟨_, _, header, ran⟩ := ran
  obtain rfl := write_eq_ok.mp header
  rw [run_bind_eq_ok] at ran
  obtain ⟨_, _, indices, ran⟩ := ran
  obtain ⟨numbered, rfl⟩ := forM_appends (fun _ _ _ => writeIndex_eq_ok) indices
  refine ⟨fits, numbered, ?_⟩
  have padded : ∀ {emitter : Emitter} {next : Emission Unit},
      (if face.size % 2 = 0 then do write (signedWordBytes 0); next else next).run emitter =
          .ok () result →
        next.run (emitter.append (if face.size % 2 = 0 then signedWordBytes 0 else [])) =
          .ok () result := by
    intro emitter next ran
    split_ifs at ran ⊢ with even
    · obtain ⟨_, _, wrote, ran⟩ := run_bind_eq_ok.mp ran
      obtain rfl := write_eq_ok.mp wrote
      exact ran
    · rwa [Emitter.append_nil]
  obtain rfl := writeWhen_eq_ok.mp (padded ran)
  have count : (polygonOf table face).corners.length = face.size := List.length_map _
  rw [Polygon.bytes, indexBytes, uvBytes, count]
  simp only [Emitter.append_append, polygonOf, List.flatMap_map, Face.isTextured, cornerOf,
    List.append_assoc]
  rfl

end Polygons

section Jumps

/-- Two bytes in the middle are replaced without touching the others. -/
theorem overwrite_append (before after : List UInt8) (old new : Int16) :
    overwrite (emitter.append (before ++ (signedWordBytes old ++ after)))
        (emitter.code.size + before.length) new =
      emitter.append (before ++ (signedWordBytes new ++ after)) := by
  have whole : ∀ bytes : List UInt8, emitter.code.toList ++ (before ++ bytes) =
      (emitter.code.toList ++ before) ++ bytes := by
    intro bytes
    rw [List.append_assoc]
  have place : emitter.code.size + before.length =
      (emitter.code.toList ++ before).length := by
    simp
  have same : ((emitter.append (before ++ (signedWordBytes old ++ after))).code.setIfInBounds
        (emitter.code.size + before.length) new.toUInt16.toUInt8).setIfInBounds
          (emitter.code.size + before.length + 1) (new.toUInt16 >>> 8).toUInt8 =
      (emitter.append (before ++ (signedWordBytes new ++ after))).code := by
    apply Array.toList_inj.mp
    rw [Array.toList_setIfInBounds, Array.toList_setIfInBounds, Emitter.append_toList,
      Emitter.append_toList, whole, whole, place, List.set_append_right _ _ (le_refl _),
      List.set_append_right _ _ (Nat.le_succ _)]
    simp [signedWordBytes, wordBytes]
  rw [overwrite]
  simp only [same]
  rfl

theorem patch_eq_ok {instruction field target : Nat} (ahead : instruction ≤ target) :
    (patch instruction field target).run emitter = .ok () result ↔
      target - instruction ≤ maxWord ∧
        result = overwrite emitter (instruction + field)
          (numberWord (target - instruction)) := by
  have distance : (target : Int) - instruction = ((target - instruction : Nat) : Int) := by
    omega
  simp only [patch, distance, run_bind_eq_ok, narrow_nat_eq_ok]
  constructor
  · rintro ⟨_, _, ⟨fits, rfl, rfl⟩, ⟨⟩⟩
    exact ⟨fits, rfl⟩
  · rintro ⟨fits, rfl⟩
    exact ⟨_, _, ⟨fits, rfl, rfl⟩, rfl⟩

end Jumps

section Trees

theorem writeSort_eq_ok {plane : Plane} {instruction : Nat} :
    (writeSort plane).run emitter = .ok instruction result ↔
      instruction = emitter.code.size ∧ result = emitter.append (sortBytes plane 0 0) := by
  simp only [writeSort, run_bind_eq_ok, position_eq_ok, write_eq_ok, pure_eq_ok]
  constructor
  · rintro ⟨_, _, ⟨rfl, rfl⟩, _, _, rfl, rfl, rfl⟩
    exact ⟨rfl, rfl⟩
  · rintro ⟨rfl, rfl⟩
    exact ⟨_, _, ⟨rfl, rfl⟩, (), _, rfl, rfl, rfl⟩

theorem writeCall_eq_ok {submodel instruction : Nat} {offset : FixedVector} :
    (writeCall submodel offset).run emitter = .ok instruction result ↔
      submodel ≤ maxWord ∧ instruction = emitter.code.size ∧
        result = emitter.append (callBytes submodel offset 0) := by
  simp only [writeCall, run_bind_eq_ok, narrow_nat_eq_ok, position_eq_ok, write_eq_ok,
    pure_eq_ok]
  constructor
  · rintro ⟨_, _, ⟨fits, rfl, rfl⟩, _, _, ⟨rfl, rfl⟩, _, _, rfl, rfl, rfl⟩
    exact ⟨fits, rfl, rfl⟩
  · rintro ⟨fits, rfl, rfl⟩
    exact ⟨_, _, ⟨fits, rfl, rfl⟩, _, _, ⟨rfl, rfl⟩, (), _, rfl, rfl, rfl⟩

theorem overwrite_call (submodel : Nat) (offset : FixedVector) (old new : Int16)
    (after : List UInt8) :
    overwrite (emitter.append (callBytes submodel offset old ++ after))
        (emitter.code.size + callJumpField) new =
      emitter.append (callBytes submodel offset new ++ after) := by
  have split : ∀ jump : Int16, callBytes submodel offset jump ++ after =
      (wordBytes Opcode.call.word ++ signedWordBytes (numberWord submodel) ++ offset.bytes) ++
        (signedWordBytes jump ++ (signedWordBytes 0 ++ after)) := by
    simp [callBytes]
  rw [split, split]
  exact overwrite_append _ _ old new

theorem overwrite_sortBack (plane : Plane) (front old new : Int16) (after : List UInt8) :
    overwrite (emitter.append (sortBytes plane old front ++ after))
        (emitter.code.size + sortBackField) new =
      emitter.append (sortBytes plane new front ++ after) := by
  have split : ∀ jump : Int16, sortBytes plane jump front ++ after =
      (wordBytes Opcode.sort.word ++ signedWordBytes 0 ++ plane.normal.bytes ++
        plane.point.bytes) ++ (signedWordBytes jump ++ (signedWordBytes front ++ after)) := by
    simp [sortBytes]
  rw [split, split]
  exact overwrite_append _ _ old new

theorem overwrite_sortFront (plane : Plane) (back old new : Int16) (after : List UInt8) :
    overwrite (emitter.append (sortBytes plane back old ++ after))
        (emitter.code.size + sortFrontField) new =
      emitter.append (sortBytes plane back new ++ after) := by
  have split : ∀ jump : Int16, sortBytes plane back jump ++ after =
      (wordBytes Opcode.sort.word ++ signedWordBytes 0 ++ plane.normal.bytes ++
        plane.point.bytes ++ signedWordBytes back) ++ (signedWordBytes jump ++ after) := by
    simp [sortBytes]
  rw [split, split]
  exact overwrite_append _ _ old new

/-- Both jumps of a sort are filled in once its branches are there. -/
theorem patch_sort_eq_ok {plane : Plane} {front back : List UInt8} {start backStart : Nat}
    {last : Emitter}
    (backPatched : (patch start sortBackField backStart).run
      (emitter.append (sortBytes plane 0 0 ++ (stopBytes ++ (front ++ back)))) = .ok () last)
    (frontPatched : (patch start sortFrontField (start + Assembly.frontJump)).run last =
      .ok () result)
    (place : start = emitter.code.size)
    (backPlace : backStart = start + (Assembly.frontJump + front.length)) :
    Assembly.frontJump + front.length ≤ maxWord ∧
      result = emitter.append
        (sortBytes plane (numberWord (Assembly.frontJump + front.length))
          (numberWord Assembly.frontJump) ++ (stopBytes ++ (front ++ back))) := by
  subst backPlace place
  obtain ⟨fits, rfl⟩ := (patch_eq_ok (Nat.le_add_right _ _)).mp backPatched
  obtain ⟨_, rfl⟩ := (patch_eq_ok (Nat.le_add_right _ _)).mp frontPatched
  rw [Nat.add_sub_cancel_left] at fits ⊢
  rw [Nat.add_sub_cancel_left, overwrite_sortBack, overwrite_sortFront]
  exact ⟨fits, rfl⟩

/-- Two branches written behind a sort. -/
def writeBranches (plane : Plane) (writeFront writeBack : Emission Unit) : Emission Unit := do
  let sort ← writeSort plane
  writeStop
  let frontStart ← position
  writeFront
  let backStart ← position
  writeBack
  patch sort sortBackField backStart
  patch sort sortFrontField frontStart

theorem writeBranches_eq_ok {plane : Plane} {writeFront writeBack : Emission Unit}
    (ran : (writeBranches plane writeFront writeBack).run emitter = .ok () result) :
    ∃ afterFront afterBack last,
      writeFront.run (emitter.append (sortBytes plane 0 0 ++ stopBytes)) =
        .ok () afterFront ∧
      writeBack.run afterFront = .ok () afterBack ∧
      (patch emitter.code.size sortBackField afterFront.code.size).run afterBack =
        .ok () last ∧
      (patch emitter.code.size sortFrontField
        (emitter.code.size + Assembly.frontJump)).run last = .ok () result := by
  simp only [writeBranches, run_bind_eq_ok, writeSort_eq_ok, position_eq_ok] at ran
  obtain ⟨_, _, ⟨rfl, rfl⟩, _, _, stopped, _, _, ⟨rfl, rfl⟩, _, afterFront, frontRan, _, _,
    ⟨rfl, rfl⟩, _, afterBack, backRan, _, last, backPatched, frontPatched⟩ := ran
  obtain rfl := write_eq_ok.mp stopped
  rw [Emitter.append_append] at frontRan frontPatched
  rw [Emitter.append_size] at frontPatched
  exact ⟨_, afterBack, last, frontRan, backRan, backPatched, frontPatched⟩

/-- What a face of a leaf must be like to be written. -/
structure Writable (table : VertexTable) (face : Face) : Prop where
  proper : (polygonOf table face).Proper
  numbered : ∀ vertex ∈ face.vertices, Numbered table vertex

theorem writeLeafFace_eq_ok {table : VertexTable} {face : Face} {index : Nat}
    (ran : (writeLeafFace table face index).run emitter = .ok () result) :
    Writable table face ∧ result = emitter.append (polygonOf table face).bytes := by
  rw [writeLeafFace, run_bind_eq_ok] at ran
  obtain ⟨_, _, checked, ran⟩ := ran
  obtain ⟨valid, rfl⟩ := lift_structural_eq_ok.mp checked
  obtain ⟨fits, numbered, rfl⟩ := writePolygon_eq_ok ran
  obtain ⟨enough, painted⟩ := (Face.validate_eq_ok_iff.mp valid).toDrawable
  have count : (polygonOf table face).corners.length = face.size := List.length_map _
  refine ⟨⟨⟨count ▸ enough, count ▸ fits, ?_⟩, numbered⟩, rfl⟩
  intro corner member
  obtain ⟨vertex, inFace, rfl⟩ := List.mem_map.mp member
  exact painted vertex inFace

end Trees

end Emission

end PaintOrder.Code
