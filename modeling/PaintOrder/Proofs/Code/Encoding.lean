import PaintOrder.Code.Emitter
import PaintOrder.Code.Instruction
import PaintOrder.Proofs.Code.Bytes

/-!
# Instructions in bytes

The bytes of every kind of instruction that the compiler writes, and what is read from a
position that holds them.  Jumps are relative to their instruction, so the bytes are the
same at every position.
-/

namespace PaintOrder.Code

/-- The greatest number that a signed word holds. -/
def maxWord : Nat := 32767

def numberWord (number : Nat) : Int16 := Int16.ofInt number

theorem toInt_numberWord {number : Nat} (fits : number ≤ maxWord) :
    (numberWord number).toInt = number := by
  rw [maxWord] at fits
  exact Int16.toInt_ofInt_of_le (by omega) (by omega)

theorem signedWord?_eq_some {number : Nat} (fits : number ≤ maxWord) :
    signedWord? number = some (numberWord number) := by
  rw [maxWord] at fits
  rw [signedWord?, if_pos (by omega)]
  rfl

theorem signedWord?_eq_none {number : Nat} (large : maxWord < number) :
    signedWord? number = none := by
  rw [maxWord] at large
  rw [signedWord?, if_neg (by omega)]

def pointsBytes (first : Nat) (positions : List FixedVector) : List UInt8 :=
  wordBytes Opcode.pointsFrom.word ++ signedWordBytes (numberWord positions.length) ++
    signedWordBytes (numberWord first) ++ signedWordBytes 0 ++
    positions.flatMap FixedVector.bytes

/-- The vertex numbers of a polygon, padded to an odd count. -/
def indexBytes (corners : List Corner) : List UInt8 :=
  corners.flatMap (fun corner => signedWordBytes corner.index) ++
    if corners.length % 2 = 0 then signedWordBytes 0 else []

/-- The texture coordinates of a polygon that has them. -/
def uvBytes (corners : List Corner) : List UInt8 :=
  corners.flatMap fun corner => (corner.uv.map FixedVector.bytes).getD []

def Polygon.bytes (polygon : Polygon) : List UInt8 :=
  wordBytes (Emission.polygonOpcode polygon.surface).word ++
    signedWordBytes (numberWord polygon.corners.length) ++
    polygon.point.bytes ++ polygon.normal.bytes ++
    wordBytes (Emission.surfaceWord polygon.surface) ++
    indexBytes polygon.corners ++
    if polygon.surface.isTextured then uvBytes polygon.corners else []

def sortBytes (plane : Plane) (back front : Int16) : List UInt8 :=
  wordBytes Opcode.sort.word ++ signedWordBytes 0 ++ plane.normal.bytes ++
    plane.point.bytes ++ signedWordBytes back ++ signedWordBytes front

def callBytes (submodel : Nat) (offset : FixedVector) (jump : Int16) : List UInt8 :=
  wordBytes Opcode.call.word ++ signedWordBytes (numberWord submodel) ++ offset.bytes ++
    signedWordBytes jump ++ signedWordBytes 0

def stopBytes : List UInt8 :=
  wordBytes Opcode.stop.word

section Sizes

@[simp] theorem length_stopBytes : stopBytes.length = stopSize := rfl

@[simp] theorem length_sortBytes (plane : Plane) (back front : Int16) :
    (sortBytes plane back front).length = sortSize := rfl

@[simp] theorem length_callBytes (submodel : Nat) (offset : FixedVector) (jump : Int16) :
    (callBytes submodel offset jump).length = callSize := rfl

@[simp] theorem length_pointsBytes (first : Nat) (positions : List FixedVector) :
    (pointsBytes first positions).length = pointsSize positions.length := by
  simp [pointsBytes, pointsSize, pointsHeaderSize, List.length_flatMap]
  omega

@[simp] theorem length_indexBytes (corners : List Corner) :
    (indexBytes corners).length = indexListLength corners.length * 2 := by
  rw [indexBytes, indexListLength]
  split_ifs with even
  · simp [List.length_flatMap]
    omega
  · simp [List.length_flatMap]

/-- A polygon is proper if it has as many corners as a count can tell and texture
coordinates at all of them or none, as its surface wants. -/
structure Polygon.Proper (polygon : Polygon) : Prop where
  atLeast : 3 ≤ polygon.corners.length
  atMost : polygon.corners.length ≤ maxWord
  painted : ∀ corner ∈ polygon.corners, corner.uv.isSome = polygon.surface.isTextured

theorem length_uvBytes {corners : List Corner} (textured : ∀ corner ∈ corners, corner.uv.isSome) :
    (uvBytes corners).length = corners.length * FixedVector.byteSize := by
  induction corners with
  | nil => rfl
  | cons corner rest ih =>
      obtain ⟨uv, isUv⟩ := Option.isSome_iff_exists.mp (textured corner (by simp))
      have restLength := ih fun other member => textured other (by simp [member])
      rw [uvBytes] at restLength ⊢
      rw [List.flatMap_cons, List.length_append, restLength, isUv]
      simp [Nat.add_mul]
      omega

theorem Polygon.Proper.length_bytes {polygon : Polygon} (proper : polygon.Proper) :
    polygon.bytes.length =
      polygonSize polygon.corners.length polygon.surface.isTextured := by
  have painted := proper.painted
  cases textured : polygon.surface.isTextured with
  | false =>
      simp [Polygon.bytes, polygonSize, polygonHeaderSize, FixedVector.byteSize, textured]
      omega
  | true =>
      rw [textured] at painted
      simp [Polygon.bytes, polygonSize, polygonHeaderSize, FixedVector.byteSize, textured,
        length_uvBytes painted]
      omega

end Sizes

end PaintOrder.Code
