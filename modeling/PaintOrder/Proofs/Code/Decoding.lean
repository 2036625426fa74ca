import Mathlib.Tactic.SplitIfs
import PaintOrder.Proofs.Code.Encoding

/-!
# Instructions as they are read

An instruction stands at an address if its fields do, each at its own distance, and all of it
lies inside the bytes.  The padding between fields may be anything.  Reading gives exactly the
instructions that stand there and that can be executed at all: a polygon needs three corners,
and the root cannot be called.
-/

namespace PaintOrder.Code

/-- A number that is not negative stands as a signed word. -/
def NumberAt (data : Array UInt8) (position number : Nat) : Prop :=
  number ≤ maxWord ∧ Holds data position (signedWordBytes (numberWord number))

/-- A field of the instruction at an address tells how far a target inside the bytes is. -/
def JumpAt (data : Array UInt8) (address field target : Nat) : Prop :=
  ∃ offset : Int16, Holds data (address + field) (signedWordBytes offset) ∧
    (target : Int) = address + offset.toInt ∧ target < data.size

namespace Instruction

/-- The fields of an instruction stand behind its address. -/
inductive Fields (data : Array UInt8) (address : Nat) : Instruction → Prop
  | stop (opcode : Holds data address (wordBytes Opcode.stop.word)) : Fields data address .stop
  | points {first : Nat} {positions : List FixedVector}
      (opcode : Holds data address (wordBytes Opcode.points.word) ∨
        Holds data address (wordBytes Opcode.pointsFrom.word))
      (count : NumberAt data (address + 2) positions.length)
      (base : NumberAt data (address + 4) first)
      (block : Holds data (address + pointsHeaderSize) (positions.flatMap FixedVector.bytes)) :
      Fields data address (.points first positions)
  | draw {polygon : Polygon}
      (opcode : Holds data address (wordBytes (Emission.polygonOpcode polygon.surface).word))
      (count : NumberAt data (address + 2) polygon.corners.length)
      (point : Holds data (address + 4) polygon.point.bytes)
      (normal : Holds data (address + 16) polygon.normal.bytes)
      (paint : Holds data (address + 28) (wordBytes (Emission.surfaceWord polygon.surface)))
      (indices : Holds data (address + polygonHeaderSize)
        (polygon.corners.flatMap fun corner => signedWordBytes corner.index))
      (painted : ∀ corner ∈ polygon.corners, corner.uv.isSome = polygon.surface.isTextured)
      (uvs : Holds data
        (address + polygonHeaderSize + indexListLength polygon.corners.length * 2)
        (uvBytes polygon.corners)) :
      Fields data address (.draw polygon)
  | sort {front back : Nat} (opcode : Holds data address (wordBytes Opcode.sort.word))
      (frontJump : JumpAt data address sortFrontField front)
      (backJump : JumpAt data address sortBackField back) :
      Fields data address (.sort front back)
  | call {submodel : Nat} {offset : FixedVector} {target : Nat}
      (opcode : Holds data address (wordBytes Opcode.call.word))
      (callee : NumberAt data (address + 2) submodel)
      (place : Holds data (address + 4) offset.bytes)
      (jump : JumpAt data address callJumpField target) :
      Fields data address (.call submodel offset target)

/-- An instruction stands complete at an address. -/
structure Stands (instruction : Instruction) (data : Array UInt8) (address : Nat) : Prop where
  fields : Fields data address instruction
  complete : address + instruction.size ≤ data.size

/-- An instruction can be executed: a polygon has three corners or more, and a call is not one
of the root. -/
def Legal : Instruction → Prop
  | draw polygon => 3 ≤ polygon.corners.length
  | call submodel _ _ => 0 < submodel
  | stop | points .. | sort .. => True

end Instruction

section Reading

variable {data : Array UInt8} {position address : Nat}

theorem require_eq_ok {length : Nat} {nothing : Unit} :
    require data position length = .ok nothing ↔ position + length ≤ data.size := by
  rw [require]
  split_ifs with inside <;> simp [inside]

theorem toInt_le_maxWord (word : Int16) : word.toInt ≤ maxWord := by
  have := word.toInt_lt
  rw [maxWord]
  omega

theorem numberWord_toInt {word : Int16} (natural : 0 ≤ word.toInt) :
    numberWord word.toInt.toNat = word := by
  rw [numberWord, Int.toNat_of_nonneg natural, Int16.ofInt_toInt]

theorem countOfWord_eq_ok {word : Int16} {least count : Nat} :
    countOfWord position word least = .ok count ↔
      least ≤ count ∧ count ≤ maxWord ∧ word = numberWord count := by
  have atMost := toInt_le_maxWord word
  rw [countOfWord]
  constructor
  · intro counted
    split_ifs at counted with enough
    obtain rfl := Except.ok.inj counted
    exact ⟨by omega, by omega, (numberWord_toInt (by omega)).symm⟩
  · rintro ⟨enough, fits, rfl⟩
    rw [toInt_numberWord fits, if_pos (by omega), Int.toNat_natCast]

theorem jumpTarget_eq_ok {offset : Int16} {target : Nat} :
    jumpTarget data position offset = .ok target ↔
      (target : Int) = position + offset.toInt ∧ target < data.size := by
  rw [jumpTarget]
  constructor
  · intro jumped
    split_ifs at jumped with inside
    obtain rfl := Except.ok.inj jumped
    omega
  · rintro ⟨isTarget, inside⟩
    simp only [← isTarget]
    rw [if_pos (by omega), Int.toNat_natCast]

/-- Elements of one size stand one after the other if each of them stands at its multiple of
the size. -/
theorem holds_flatMap_iff {α : Type} {bytes : α → List UInt8} {size : Nat} {elements : List α}
    (sized : ∀ element ∈ elements, (bytes element).length = size) :
    Holds data position (elements.flatMap bytes) ↔
      ∀ index (inRange : index < elements.length),
        Holds data (position + index * size) (bytes elements[index]) := by
  refine ⟨fun holds index inRange => holds_flatMap sized holds inRange, ?_⟩
  intro each
  induction elements generalizing position with
  | nil => trivial
  | cons element rest ih =>
      have first := each 0 (Nat.zero_lt_succ _)
      rw [Nat.zero_mul, Nat.add_zero] at first
      rw [List.flatMap_cons, holds_append, sized element (by simp)]
      refine ⟨first, ih (fun other member => sized other (by simp [member])) ?_⟩
      intro index inRange
      have shift : position + (index + 1) * size = position + size + index * size := by
        rw [Nat.add_mul]
        omega
      have later := each (index + 1) (by simpa using inRange)
      rwa [shift] at later

theorem pointsAt_eq_ok {instruction : Instruction} :
    pointsAt data address = .ok instruction ↔
      ∃ first positions, instruction = .points first positions ∧
        NumberAt data (address + 2) positions.length ∧ NumberAt data (address + 4) first ∧
        Holds data (address + pointsHeaderSize) (positions.flatMap FixedVector.bytes) ∧
        address + pointsSize positions.length ≤ data.size := by
  have block : ∀ {positions : List FixedVector},
      Holds data (address + pointsHeaderSize) (positions.flatMap FixedVector.bytes) ↔
        ∀ index (inRange : index < positions.length),
          Holds data (address + pointsHeaderSize + index * FixedVector.byteSize)
            positions[index].bytes :=
    holds_flatMap_iff fun vector _ => length_vector_bytes vector
  simp only [pointsAt, bind_eq_ok, pure_eq_ok, liftM_format, mapError_eq_ok, require_eq_ok,
    countOfWord_eq_ok, signedWordAt_eq_ok, mapM_range_eq_ok, vector_readAt_eq_ok, block,
    NumberAt, pointsSize]
  constructor
  · rintro ⟨⟨⟩, _, _, countHolds, _, ⟨_, countFits, rfl⟩, _, baseHolds, first,
      ⟨_, baseFits, rfl⟩, ⟨⟩, inside, positions, ⟨rfl, each⟩, rfl⟩
    exact ⟨first, positions, rfl, ⟨countFits, countHolds⟩, ⟨baseFits, baseHolds⟩, each,
      by omega⟩
  · rintro ⟨first, positions, rfl, ⟨countFits, countHolds⟩, ⟨baseFits, baseHolds⟩, each, inside⟩
    exact ⟨(), by simp only [pointsHeaderSize] at inside ⊢; omega, _, countHolds, _,
      ⟨Nat.zero_le _, countFits, rfl⟩, _, baseHolds, first, ⟨Nat.zero_le _, baseFits, rfl⟩, (),
      by omega, positions, ⟨rfl, each⟩, rfl⟩

theorem sortAt_eq_ok {instruction : Instruction} :
    sortAt data address = .ok instruction ↔
      ∃ front back, instruction = .sort front back ∧
        JumpAt data address sortFrontField front ∧ JumpAt data address sortBackField back ∧
        address + sortSize ≤ data.size := by
  have sizes : address + sortBackField + (sortSize - sortBackField) = address + sortSize := by
    rw [sortBackField, sortSize]
  simp only [sortAt, bind_eq_ok, pure_eq_ok, liftM_format, mapError_eq_ok, require_eq_ok,
    signedWordAt_eq_ok, jumpTarget_eq_ok, sizes, JumpAt]
  constructor
  · rintro ⟨_, inside, backOffset, backHolds, frontOffset, frontHolds, front, frontInside, back,
      backInside, rfl⟩
    exact ⟨front, back, rfl, ⟨frontOffset, frontHolds, frontInside⟩,
      ⟨backOffset, backHolds, backInside⟩, inside⟩
  · rintro ⟨front, back, rfl, ⟨frontOffset, frontHolds, frontInside⟩,
      ⟨backOffset, backHolds, backInside⟩, inside⟩
    exact ⟨(), inside, backOffset, backHolds, frontOffset, frontHolds, front, frontInside, back,
      backInside, rfl⟩

theorem callAt_eq_ok {instruction : Instruction} :
    callAt data address = .ok instruction ↔
      ∃ submodel offset target, instruction = .call submodel offset target ∧ 0 < submodel ∧
        NumberAt data (address + 2) submodel ∧ Holds data (address + 4) offset.bytes ∧
        JumpAt data address callJumpField target ∧ address + callSize ≤ data.size := by
  have sizes : address + 2 + (callSize - 2) = address + callSize := by
    rw [callSize]
  simp only [callAt, bind_eq_ok, liftM_format, mapError_eq_ok, require_eq_ok, signedWordAt_eq_ok,
    vector_readAt_eq_ok, sizes, JumpAt, NumberAt]
  constructor
  · rintro ⟨_, inside, word, wordHolds, offset, offsetHolds, jump, jumpHolds, checked⟩
    split_ifs at checked with unusable
    · cases checked
    · simp only [bind_eq_ok, pure_eq_ok, mapError_eq_ok, jumpTarget_eq_ok] at checked
      obtain ⟨target, targetInside, rfl⟩ := checked
      have atMost := toInt_le_maxWord word
      refine ⟨_, offset, target, rfl, by omega, ⟨by omega, ?_⟩, offsetHolds,
        ⟨jump, jumpHolds, targetInside⟩, inside⟩
      rwa [numberWord_toInt (by omega)]
  · rintro ⟨submodel, offset, target, rfl, positive, ⟨fits, wordHolds⟩, offsetHolds,
      ⟨jump, jumpHolds, targetInside⟩, inside⟩
    refine ⟨(), inside, _, wordHolds, offset, offsetHolds, jump, jumpHolds, ?_⟩
    rw [toInt_numberWord fits, if_neg (by omega)]
    simp only [bind_eq_ok, pure_eq_ok, mapError_eq_ok, jumpTarget_eq_ok]
    exact ⟨target, targetInside, by rw [Int.toNat_natCast]⟩

/-- A corner is read from its two places. -/
theorem cornerAt_eq_ok {textured : Bool} {indexPlace uvPlace : Nat} {corner : Corner} :
    (do
      let index ← signedWordAt data indexPlace
      if textured then
        return (⟨index, some (← FixedVector.readAt data uvPlace)⟩ : Corner)
      else
        return ⟨index, none⟩) = .ok corner ↔
      Holds data indexPlace (signedWordBytes corner.index) ∧ corner.uv.isSome = textured ∧
        Holds data uvPlace ((corner.uv.map FixedVector.bytes).getD []) := by
  obtain ⟨cornerIndex, cornerUv⟩ := corner
  cases textured with
  | false =>
      simp only [bind_eq_ok, signedWordAt_eq_ok, Bool.false_eq_true, if_false, pure_eq_ok]
      constructor
      · rintro ⟨index, holds, ⟨⟩⟩
        exact ⟨holds, rfl, trivial⟩
      · rintro ⟨holds, plain, _⟩
        obtain rfl : cornerUv = none := by simpa using plain
        exact ⟨cornerIndex, holds, rfl⟩
  | true =>
      simp only [bind_eq_ok, signedWordAt_eq_ok, if_true, pure_eq_ok, vector_readAt_eq_ok]
      constructor
      · rintro ⟨index, holds, uv, uvHolds, ⟨⟩⟩
        exact ⟨holds, rfl, uvHolds⟩
      · rintro ⟨holds, isTextured, uvHolds⟩
        obtain ⟨uv, rfl⟩ := Option.isSome_iff_exists.mp isTextured
        exact ⟨cornerIndex, holds, uv, uvHolds, rfl⟩

theorem uvBytes_of_flat {corners : List Corner}
    (painted : ∀ corner ∈ corners, corner.uv.isSome = false) : uvBytes corners = [] := by
  rw [uvBytes, List.flatMap_eq_nil_iff]
  intro corner member
  have plain : corner.uv = none := by simpa using painted corner member
  rw [plain]
  rfl

theorem holds_uvBytes_iff {corners : List Corner} {textured : Bool}
    (painted : ∀ corner ∈ corners, corner.uv.isSome = textured) :
    Holds data position (uvBytes corners) ↔
      ∀ index (inRange : index < corners.length),
        Holds data (position + index * FixedVector.byteSize)
          ((corners[index].uv.map FixedVector.bytes).getD []) := by
  cases textured with
  | true =>
      apply holds_flatMap_iff
      intro corner member
      obtain ⟨uv, isUv⟩ := Option.isSome_iff_exists.mp (painted corner member)
      rw [isUv]
      rfl
  | false =>
      rw [uvBytes_of_flat painted]
      refine ⟨?_, fun _ => trivial⟩
      intro _ index inRange
      have plain : corners[index].uv = none := by
        simpa using painted _ (List.getElem_mem inRange)
      rw [plain]
      trivial

/-- Corners are read from two lists, one of vertex numbers and one of texture coordinates. -/
theorem corners_eq_ok {textured : Bool} {indexStart uvStart count : Nat}
    {corners : List Corner} :
    ((List.range count).mapM fun corner => do
      let index ← signedWordAt data (indexStart + corner * 2)
      if textured then
        return (⟨index, some (← FixedVector.readAt data
          (uvStart + corner * FixedVector.byteSize))⟩ : Corner)
      else
        return ⟨index, none⟩) = .ok corners ↔
      corners.length = count ∧
        Holds data indexStart (corners.flatMap fun corner => signedWordBytes corner.index) ∧
        (∀ corner ∈ corners, corner.uv.isSome = textured) ∧
        Holds data uvStart (uvBytes corners) := by
  rw [mapM_range_eq_ok]
  refine and_congr_right fun _ => ?_
  rw [holds_flatMap_iff fun corner _ => length_signedWordBytes corner.index]
  simp only [cornerAt_eq_ok]
  constructor
  · intro each
    have painted : ∀ corner ∈ corners, corner.uv.isSome = textured := by
      intro corner member
      obtain ⟨index, inRange, rfl⟩ := List.mem_iff_getElem.mp member
      exact (each index inRange).2.1
    exact ⟨fun index inRange => (each index inRange).1, painted,
      (holds_uvBytes_iff painted).mpr fun index inRange => (each index inRange).2.2⟩
  · rintro ⟨indices, painted, uvs⟩ index inRange
    exact ⟨indices index inRange, painted _ (List.getElem_mem inRange),
      (holds_uvBytes_iff painted).mp uvs index inRange⟩

theorem polygonAt_eq_ok {textured : Bool} {instruction : Instruction} :
    polygonAt data address textured = .ok instruction ↔
      ∃ polygon : Polygon, instruction = .draw polygon ∧
        polygon.surface.isTextured = textured ∧ 3 ≤ polygon.corners.length ∧
        NumberAt data (address + 2) polygon.corners.length ∧
        Holds data (address + 4) polygon.point.bytes ∧
        Holds data (address + 16) polygon.normal.bytes ∧
        Holds data (address + 28) (wordBytes (Emission.surfaceWord polygon.surface)) ∧
        Holds data (address + polygonHeaderSize)
          (polygon.corners.flatMap fun corner => signedWordBytes corner.index) ∧
        (∀ corner ∈ polygon.corners, corner.uv.isSome = textured) ∧
        Holds data (address + polygonHeaderSize + indexListLength polygon.corners.length * 2)
          (uvBytes polygon.corners) ∧
        address + polygonSize polygon.corners.length textured ≤ data.size := by
  simp only [polygonAt, bind_eq_ok, liftM_format, mapError_eq_ok, require_eq_ok,
    countOfWord_eq_ok, signedWordAt_eq_ok, vector_readAt_eq_ok, wordAt_eq_ok, corners_eq_ok,
    pure_eq_ok, NumberAt]
  constructor
  · rintro ⟨_, _, _, countHolds, count, ⟨enough, fits, rfl⟩, point, pointHolds, normal,
      normalHolds, paint, paintHolds, _, inside, corners, ⟨rfl, indices, painted, uvs⟩, rfl⟩
    refine ⟨_, rfl, ?_, enough, ⟨fits, countHolds⟩, pointHolds, normalHolds, ?_, indices, painted,
      uvs, inside⟩
    · cases textured <;> rfl
    · cases textured <;> exact paintHolds
  · rintro ⟨⟨corners, point, normal, surface⟩, rfl, rfl, enough, ⟨fits, countHolds⟩, pointHolds,
      normalHolds, paintHolds, indices, painted, uvs, inside⟩
    have header : address + 2 + (polygonHeaderSize - 2) ≤ data.size := by
      simp only [polygonSize, polygonHeaderSize] at inside ⊢
      omega
    refine ⟨(), header, _, countHolds, _, ⟨enough, fits, rfl⟩, point, pointHolds, normal,
      normalHolds, _, paintHolds, (), inside, corners, ⟨rfl, indices, painted, uvs⟩, ?_⟩
    cases surface <;> rfl

theorem opcode_ofWord_eq_ok {word : UInt16} {opcode : Opcode} :
    Opcode.ofWord word position = .ok opcode ↔ word = opcode.word := by
  constructor
  · intro decoded
    unfold Opcode.ofWord at decoded
    split at decoded <;> cases decoded <;> rfl
  · rintro rfl
    exact Opcode.ofWord_word opcode position

end Reading

namespace Instruction

variable {data : Array UInt8} {address : Nat} {instruction : Instruction}

/-- The opcode decides how the rest of an instruction is read. -/
theorem at_eq_ok :
    Instruction.at data address = .ok instruction ↔
      ∃ opcode : Opcode, Holds data address (wordBytes opcode.word) ∧
        (match opcode with
          | .stop => (.ok .stop : Except Error Instruction)
          | .points | .pointsFrom => pointsAt data address
          | .flatPolygon => polygonAt data address false
          | .texturedPolygon => polygonAt data address true
          | .sort => sortAt data address
          | .call => callAt data address) = .ok instruction := by
  simp only [Instruction.at, bind_eq_ok, liftM_format, mapError_eq_ok, require_eq_ok,
    wordAt_eq_ok, opcode_ofWord_eq_ok]
  constructor
  · rintro ⟨_, _, _, holds, opcode, rfl, read⟩
    exact ⟨opcode, holds, by cases opcode <;> exact read⟩
  · rintro ⟨opcode, holds, read⟩
    have inside : address + stopSize ≤ data.size := holds.le_size (by simp [wordBytes])
    exact ⟨(), inside, _, holds, opcode, rfl, by cases opcode <;> exact read⟩

theorem stands_of_pointsAt (opcode : Holds data address (wordBytes Opcode.points.word) ∨
      Holds data address (wordBytes Opcode.pointsFrom.word))
    (read : pointsAt data address = .ok instruction) :
    instruction.Stands data address ∧ instruction.Legal := by
  obtain ⟨first, positions, rfl, count, base, block, inside⟩ := pointsAt_eq_ok.mp read
  exact ⟨⟨.points opcode count base block, inside⟩, trivial⟩

/-- A polygon stands under the opcode of its surface. -/
theorem stands_of_polygonAt {textured : Bool} {opcode : Opcode}
    (paints : ∀ surface : Surface, surface.isTextured = textured →
      Emission.polygonOpcode surface = opcode)
    (holds : Holds data address (wordBytes opcode.word))
    (read : polygonAt data address textured = .ok instruction) :
    instruction.Stands data address ∧ instruction.Legal := by
  obtain ⟨polygon, rfl, isTextured, enough, count, point, normal, paint, indices, painted, uvs,
    inside⟩ := polygonAt_eq_ok.mp read
  rw [← paints polygon.surface isTextured] at holds
  rw [← isTextured] at painted inside
  exact ⟨⟨.draw holds count point normal paint indices painted uvs, inside⟩, enough⟩

/-- What is read stands there and is legal. -/
theorem stands_of_at (read : Instruction.at data address = .ok instruction) :
    instruction.Stands data address ∧ instruction.Legal := by
  obtain ⟨opcode, holds, rest⟩ := at_eq_ok.mp read
  cases opcode with
  | stop =>
      obtain rfl := Except.ok.inj rest
      exact ⟨⟨.stop holds, holds.le_size (by simp [wordBytes])⟩, trivial⟩
  | points => exact stands_of_pointsAt (.inl holds) rest
  | pointsFrom => exact stands_of_pointsAt (.inr holds) rest
  | flatPolygon =>
      refine stands_of_polygonAt ?_ holds rest
      rintro (color | texture) ⟨⟩
      rfl
  | texturedPolygon =>
      refine stands_of_polygonAt ?_ holds rest
      rintro (color | texture) ⟨⟩
      rfl
  | sort =>
      obtain ⟨front, back, rfl, frontJump, backJump, inside⟩ := sortAt_eq_ok.mp rest
      exact ⟨⟨.sort holds frontJump backJump, inside⟩, trivial⟩
  | call =>
      obtain ⟨submodel, offset, target, rfl, positive, callee, place, jump, inside⟩ :=
        callAt_eq_ok.mp rest
      exact ⟨⟨.call holds callee place jump, inside⟩, positive⟩

/-- A legal instruction that stands at an address is read. -/
theorem at_of_stands (stands : instruction.Stands data address) (legal : instruction.Legal) :
    Instruction.at data address = .ok instruction := by
  obtain ⟨fields, inside⟩ := stands
  rw [at_eq_ok]
  cases fields with
  | stop holds => exact ⟨.stop, holds, rfl⟩
  | points defines count base block =>
      have read := pointsAt_eq_ok.mpr ⟨_, _, rfl, count, base, block, inside⟩
      rcases defines with holds | holds
      · exact ⟨.points, holds, read⟩
      · exact ⟨.pointsFrom, holds, read⟩
  | @draw polygon holds count point normal paint indices painted uvs =>
      have read := polygonAt_eq_ok.mpr ⟨polygon, rfl, rfl, legal, count, point, normal, paint,
        indices, painted, uvs, inside⟩
      refine ⟨Emission.polygonOpcode polygon.surface, holds, ?_⟩
      cases surface : polygon.surface <;> rw [surface] at read <;> exact read
  | sort holds frontJump backJump =>
      exact ⟨.sort, holds, sortAt_eq_ok.mpr ⟨_, _, rfl, frontJump, backJump, inside⟩⟩
  | call holds callee place jump =>
      exact ⟨.call, holds, callAt_eq_ok.mpr ⟨_, _, _, rfl, legal, callee, place, jump, inside⟩⟩

/-- Reading gives the legal instructions that stand at an address. -/
theorem at_eq_ok_iff :
    Instruction.at data address = .ok instruction ↔
      instruction.Stands data address ∧ instruction.Legal :=
  ⟨stands_of_at, fun ⟨stands, legal⟩ => at_of_stands stands legal⟩

end Instruction

section Written

variable {data : Array UInt8} {position : Nat}

theorem jumpAt_of_holds {field offset : Nat} (fits : offset ≤ maxWord)
    (inside : position + offset < data.size)
    (holds : Holds data (position + field) (signedWordBytes (numberWord offset))) :
    JumpAt data position field (position + offset) :=
  ⟨numberWord offset, holds, by rw [toInt_numberWord fits]; rfl, inside⟩

theorem at_of_stopBytes (holds : Holds data position stopBytes) :
    Instruction.at data position = .ok .stop :=
  Instruction.at_eq_ok_iff.mpr
    ⟨⟨.stop holds, holds.le_size (by simp [stopBytes, wordBytes])⟩, trivial⟩

theorem at_of_pointsBytes {first : Nat} {positions : List FixedVector}
    (firstFits : first ≤ maxWord) (countFits : positions.length ≤ maxWord)
    (holds : Holds data position (pointsBytes first positions)) :
    Instruction.at data position = .ok (.points first positions) := by
  have inside := holds.le_size (by simp [pointsBytes, wordBytes])
  rw [length_pointsBytes] at inside
  simp only [pointsBytes, holds_append, List.length_append, length_wordBytes,
    length_signedWordBytes] at holds
  obtain ⟨⟨⟨⟨opcode, count⟩, base⟩, _⟩, block⟩ := holds
  exact Instruction.at_eq_ok_iff.mpr
    ⟨⟨.points (.inr opcode) ⟨countFits, count⟩ ⟨firstFits, base⟩ block, inside⟩, trivial⟩

theorem at_of_sortBytes {plane : Plane} {back front : Nat} (backFits : back ≤ maxWord)
    (frontFits : front ≤ maxWord) (backInside : position + back < data.size)
    (frontInside : position + front < data.size)
    (holds : Holds data position (sortBytes plane (numberWord back) (numberWord front))) :
    Instruction.at data position = .ok (.sort (position + front) (position + back)) := by
  have inside := holds.le_size (by simp [sortBytes, wordBytes])
  rw [length_sortBytes] at inside
  simp only [sortBytes, holds_append, List.length_append, length_wordBytes,
    length_signedWordBytes, length_vector_bytes, FixedVector.byteSize] at holds
  obtain ⟨⟨⟨⟨⟨opcode, _⟩, _⟩, _⟩, backField⟩, frontField⟩ := holds
  exact Instruction.at_eq_ok_iff.mpr
    ⟨⟨.sort opcode (jumpAt_of_holds frontFits frontInside frontField)
      (jumpAt_of_holds backFits backInside backField), inside⟩, trivial⟩

theorem at_of_callBytes {submodel : Nat} {offset : FixedVector} {jump : Nat}
    (positive : 0 < submodel) (submodelFits : submodel ≤ maxWord) (jumpFits : jump ≤ maxWord)
    (jumpInside : position + jump < data.size)
    (holds : Holds data position (callBytes submodel offset (numberWord jump))) :
    Instruction.at data position = .ok (.call submodel offset (position + jump)) := by
  have inside := holds.le_size (by simp [callBytes, wordBytes])
  rw [length_callBytes] at inside
  simp only [callBytes, holds_append, List.length_append, length_wordBytes,
    length_signedWordBytes, length_vector_bytes, FixedVector.byteSize] at holds
  obtain ⟨⟨⟨⟨opcode, callee⟩, place⟩, jumpField⟩, _⟩ := holds
  exact Instruction.at_eq_ok_iff.mpr
    ⟨⟨.call opcode ⟨submodelFits, callee⟩ place (jumpAt_of_holds jumpFits jumpInside jumpField),
      inside⟩, positive⟩

theorem at_of_polygonBytes {polygon : Polygon} (proper : polygon.Proper)
    (holds : Holds data position polygon.bytes) :
    Instruction.at data position = .ok (.draw polygon) := by
  have inside := holds.le_size (by simp [Polygon.bytes, wordBytes])
  rw [proper.length_bytes] at inside
  simp only [Polygon.bytes, holds_append, List.length_append, length_wordBytes,
    length_signedWordBytes, length_vector_bytes, FixedVector.byteSize,
    length_indexBytes] at holds
  obtain ⟨⟨⟨⟨⟨⟨opcode, count⟩, point⟩, normal⟩, paint⟩, indexList⟩, uvList⟩ := holds
  have uvPlace : position +
      (2 + 2 + 12 + 12 + 2 + indexListLength polygon.corners.length * 2) =
        position + polygonHeaderSize + indexListLength polygon.corners.length * 2 := by
    rw [polygonHeaderSize]
    omega
  rw [uvPlace] at uvList
  rw [indexBytes, holds_append] at indexList
  have uvs : Holds data
      (position + polygonHeaderSize + indexListLength polygon.corners.length * 2)
      (uvBytes polygon.corners) := by
    cases textured : polygon.surface.isTextured with
    | true => rwa [textured, if_pos rfl] at uvList
    | false =>
        rw [uvBytes_of_flat (textured ▸ proper.painted)]
        trivial
  exact Instruction.at_eq_ok_iff.mpr
    ⟨⟨.draw opcode ⟨proper.atMost, count⟩ point normal paint indexList.1 proper.painted uvs,
      inside⟩, proper.atLeast⟩

end Written

end PaintOrder.Code
