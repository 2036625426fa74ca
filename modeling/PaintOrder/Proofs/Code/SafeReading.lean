import PaintOrder.Proofs.Code.Checked
import PaintOrder.Proofs.Code.Program

/-!
# Instructions are read safely

Every access that reading an instruction makes is covered by a check of its length before, and
every sum of positions stays close to the bytes.  So a checked read gives what the unchecked
one gives, or both report the same error of the format; there are no faults, and no read
comes up short.
-/

namespace PaintOrder.Code.Checked

/-- The bytes and the marks of their positions, of which there are as many, lie in one memory
with 64-bit addresses and leave 64 KiB of it for everything else.  So positions, and those
that a jump can reach from them, are signed 64-bit numbers. -/
def Addressable (data : Array UInt8) : Prop :=
  data.size + maxWord < 1 <<< 63

instance (data : Array UInt8) : Decidable (Addressable data) :=
  inferInstanceAs (Decidable (data.size + maxWord < 1 <<< 63))

section Reading

variable {data : Array UInt8} {position : Nat}

theorem exists_byteAt (inside : position < data.size) :
    ∃ byte, byteAt data position = .ok byte :=
  ⟨data[position], byteAt_eq_ok.mpr (Array.getElem?_eq_getElem inside)⟩

theorem exists_wordAt (inside : position + 2 ≤ data.size) :
    ∃ word, wordAt data position = .ok word := by
  obtain ⟨low, lowRead⟩ : ∃ byte, byteAt data position = .ok byte := exists_byteAt (by omega)
  obtain ⟨high, highRead⟩ : ∃ byte, byteAt data (position + 1) = .ok byte :=
    exists_byteAt (by omega)
  exact ⟨_, by rw [wordAt, lowRead, ok_bind, highRead]; rfl⟩

theorem exists_signedWordAt (inside : position + 2 ≤ data.size) :
    ∃ word, signedWordAt data position = .ok word := by
  obtain ⟨word, wordRead⟩ := exists_wordAt inside
  exact ⟨_, by rw [signedWordAt, wordRead]; rfl⟩

theorem exists_fixedAt (inside : position + 4 ≤ data.size) :
    ∃ number, Fixed.readAt data position = .ok number := by
  obtain ⟨low, lowRead⟩ : ∃ word, wordAt data position = .ok word := exists_wordAt (by omega)
  obtain ⟨high, highRead⟩ : ∃ word, wordAt data (position + 2) = .ok word :=
    exists_wordAt (by omega)
  exact ⟨_, by rw [Fixed.readAt, lowRead, ok_bind, highRead]; rfl⟩

theorem exists_vectorAt (inside : position + FixedVector.byteSize ≤ data.size) :
    ∃ vector, FixedVector.readAt data position = .ok vector := by
  rw [FixedVector.byteSize] at inside
  obtain ⟨x, xRead⟩ : ∃ number, Fixed.readAt data position = .ok number :=
    exists_fixedAt (by omega)
  obtain ⟨y, yRead⟩ : ∃ number, Fixed.readAt data (position + 4) = .ok number :=
    exists_fixedAt (by omega)
  obtain ⟨z, zRead⟩ : ∃ number, Fixed.readAt data (position + 8) = .ok number :=
    exists_fixedAt (by omega)
  exact ⟨_, by rw [FixedVector.readAt, xRead, ok_bind, yRead, ok_bind, zRead]; rfl⟩

/-- One of several vectors that are inside the bytes can be read. -/
theorem exists_element {count index : Nat}
    (inside : position + count * FixedVector.byteSize ≤ data.size) (inRange : index < count) :
    ∃ vector, FixedVector.readAt data (position + index * FixedVector.byteSize) = .ok vector := by
  apply exists_vectorAt
  have : (index + 1) * FixedVector.byteSize ≤ count * FixedVector.byteSize :=
    Nat.mul_le_mul_right _ inRange
  rw [Nat.add_mul] at this
  omega

theorem exists_corners {textured : Bool} {indexStart uvStart count : Nat}
    (indexRoom : indexStart + count * 2 ≤ data.size)
    (uvRoom : textured = true → uvStart + count * FixedVector.byteSize ≤ data.size) :
    ∃ corners, ((List.range count).mapM fun corner => do
      let index ← signedWordAt data (indexStart + corner * 2)
      if textured then
        return (⟨index, some (← FixedVector.readAt data
          (uvStart + corner * FixedVector.byteSize))⟩ : Corner)
      else
        return ⟨index, none⟩) = .ok corners := by
  apply exists_mapM_range_eq_ok
  intro corner inRange
  obtain ⟨index, indexRead⟩ : ∃ word, signedWordAt data (indexStart + corner * 2) = .ok word :=
    exists_signedWordAt (by omega)
  rw [indexRead, ok_bind]
  cases textured with
  | false => exact ⟨_, rfl⟩
  | true =>
      obtain ⟨uv, uvRead⟩ := exists_element (uvRoom rfl) inRange
      exact ⟨⟨index, some uv⟩, by rw [if_pos rfl, uvRead]; rfl⟩

theorem read_eq {α : Type} {size start stop : Nat} {readAt : Nat → Except Error α} {number : α}
    (room : start + size ≤ stop) (here : readAt start = .ok number) :
    read size readAt ⟨start, stop⟩ = .ok (number, ⟨start + size, stop⟩) := by
  rw [read, if_pos room, here]

theorem readVector_eq {start stop : Nat} {vector : FixedVector} (room : start + 12 ≤ stop)
    (here : FixedVector.readAt data start = .ok vector) :
    readVector data ⟨start, stop⟩ = .ok (vector, ⟨start + 12, stop⟩) := by
  simp only [FixedVector.readAt, bind_eq_ok, pure_eq_ok] at here
  obtain ⟨x, xHere, y, yHere, z, zHere, rfl⟩ := here
  have yPlace : start + 4 + 4 = start + 8 := by omega
  have zPlace : start + 8 + 4 = start + 12 := by omega
  rw [readVector, read_eq (by omega) xHere, ok_bind]
  simp only
  rw [read_eq (by omega) yHere, ok_bind]
  simp only [yPlace]
  rw [read_eq (by omega) zHere, ok_bind]
  simp only [zPlace]
  rfl

end Reading

/-- A checked step gives what the unchecked one gives, up to some difference in form, or both
report the same error, which is one of the format. -/
inductive Matches {α β : Type} (same : α → β → Prop) : Except Halt α → Except Error β → Prop
  | ok {value : α} {other : β} (related : same value other) :
      Matches same (.ok value) (.ok other)
  | error (cause : FormatError) :
      Matches same (.error (.error (.format cause))) (.error (.format cause))

namespace Matches

variable {α β α' β' : Type} {same : α → β → Prop} {same' : α' → β' → Prop}

theorem bind {step : Except Halt α} {other : Except Error β} (first : Matches same step other)
    {next : α → Except Halt α'} {otherNext : β → Except Error β'}
    (later : ∀ value otherValue, same value otherValue →
      Matches same' (next value) (otherNext otherValue)) :
    Matches same' (step >>= next) (other >>= otherNext) := by
  cases first with
  | ok related => exact later _ _ related
  | error cause => exact .error cause

theorem cases {step : Except Halt α} {other : Except Error β} (related : Matches same step other) :
    (∃ value otherValue, step = .ok value ∧ other = .ok otherValue ∧ same value otherValue) ∨
      ∃ cause, step = .error (.error (.format cause)) ∧ other = .error (.format cause) := by
  cases related with
  | ok related => exact .inl ⟨_, _, rfl, rfl, related⟩
  | error cause => exact .inr ⟨cause, rfl, rfl⟩

theorem of_format (check : Except FormatError α) :
    Matches (fun value other => value = other ∧ check = .ok value)
      (liftM check : Except Halt α) (liftM check : Except Error α) := by
  cases check with
  | ok value => exact .ok ⟨rfl, rfl⟩
  | error cause => exact .error cause

end Matches

section Instructions

variable {data : Array UInt8} {position : Nat}

theorem fits_of_lt {number : Nat} (small : number < 18446744073709551616) :
    fits number = .ok () :=
  if_pos (by rw [wordSize]; exact small)

theorem fits_of_le (addressable : Addressable data) {number : Nat}
    (near : number ≤ data.size + maxWord) : fits number = .ok () := by
  rw [Addressable] at addressable
  exact fits_of_lt (by omega)

theorem slice_eq_ok (addressable : Addressable data) {length : Nat}
    (inside : position + length ≤ data.size) :
    slice data position length = .ok ⟨position, position + length⟩ := by
  have small : position + length < wordSize := by
    have : (1 <<< 63 : Nat) < 1 <<< 64 := by decide
    rw [Addressable] at addressable
    rw [wordSize]
    omega
  exact if_pos ⟨small, inside⟩

theorem slice_eq_error {length : Nat} (outside : ¬position + length ≤ data.size) :
    slice data position length = .error (.error (.format (.truncated position))) :=
  if_neg fun both => outside both.2

theorem slice_matches (addressable : Addressable data) (position length : Nat) :
    Matches (fun found _ => found = ⟨position, position + length⟩ ∧
        position + length ≤ data.size)
      (slice data position length) (liftM (require data position length) : Except Error Unit) := by
  by_cases inside : position + length ≤ data.size
  · have required : require data position length = .ok () := require_eq_ok.mpr inside
    rw [slice_eq_ok addressable inside, required]
    exact .ok ⟨rfl, inside⟩
  · rw [slice_eq_error inside, require, if_neg inside]
    exact .error _

theorem jump_matches (addressable : Addressable data) (inside : position < data.size)
    (offset : Int16) :
    Matches Eq (jump data position offset)
      (liftM (jumpTarget data position offset) : Except Error Nat) := by
  have sameSign : ∀ number : Nat, number ≤ data.size → signed number = number := by
    intro number atMost
    have : (1 <<< 63 : Nat) + 1 <<< 63 = 1 <<< 64 := by decide
    rw [Addressable] at addressable
    rw [signed, wordSize]
    apply Int.bmod_eq_of_le <;> omega
  have atMost := toInt_le_maxWord offset
  have atLeast := offset.le_toInt
  have limit : (1 <<< 63 : Int) = ((1 <<< 63 : Nat) : Int) := by decide
  rw [Addressable, maxWord] at addressable
  rw [maxWord] at atMost
  rw [jump, sameSign position (by omega), sameSign data.size (Nat.le_refl _), jumpTarget,
    if_neg (by omega)]
  by_cases leaves : (position : Int) + offset.toInt < 0 ∨
      data.size ≤ (position : Int) + offset.toInt
  · rw [if_pos leaves, if_neg (by omega)]
    exact .error _
  · rw [if_neg leaves, if_pos (by omega)]
    exact .ok rfl

theorem readSignedWord_eq {start stop : Nat} {word : Int16} (room : start + 2 ≤ stop)
    (here : signedWordAt data start = .ok word) :
    readSignedWord data ⟨start, stop⟩ = .ok (word, ⟨start + 2, stop⟩) :=
  read_eq room here

/-- Inside the bytes, a number is read off a slice as it is read from the bytes. -/
theorem read_matches {α : Type} {size start stop : Nat} {readAt : Nat → Except Error α}
    (room : start + size ≤ stop) (readable : ∃ number, readAt start = .ok number) :
    Matches (fun found number => found = (number, ⟨start + size, stop⟩))
      (read size readAt ⟨start, stop⟩) (readAt start) := by
  obtain ⟨number, here⟩ := readable
  rw [read_eq room here, here]
  exact .ok rfl

theorem readWord_matches {start stop : Nat} (room : start + 2 ≤ stop)
    (inside : stop ≤ data.size) :
    Matches (fun found word => found = (word, ⟨start + 2, stop⟩))
      (readWord data ⟨start, stop⟩) (wordAt data start) :=
  read_matches room (exists_wordAt (Nat.le_trans room inside))

theorem readSignedWord_matches {start stop : Nat} (room : start + 2 ≤ stop)
    (inside : stop ≤ data.size) :
    Matches (fun found word => found = (word, ⟨start + 2, stop⟩))
      (readSignedWord data ⟨start, stop⟩) (signedWordAt data start) :=
  read_matches room (exists_signedWordAt (Nat.le_trans room inside))

theorem readVector_matches {start stop : Nat} (room : start + 12 ≤ stop)
    (inside : stop ≤ data.size) :
    Matches (fun found vector => found = (vector, ⟨start + 12, stop⟩))
      (readVector data ⟨start, stop⟩) (FixedVector.readAt data start) := by
  obtain ⟨vector, here⟩ := exists_vectorAt (Nat.le_trans room inside)
  rw [readVector_eq room here, here]
  exact .ok rfl

theorem sort_matches (addressable : Addressable data) (inside : position + 2 ≤ data.size) :
    Matches (fun branches instruction => instruction = .sort branches.1 branches.2)
      (sort data position) (sortAt data position) := by
  rw [sort, sortAt, fits_of_le addressable (by rw [sortBackField, maxWord]; omega), ok_bind]
  refine (slice_matches addressable _ _).bind ?_
  rintro _ _ ⟨rfl, complete⟩
  simp only [sortBackField, sortSize, sortFrontField] at complete ⊢
  refine (readSignedWord_matches (by omega) complete).bind ?_
  rintro _ back rfl
  refine (readSignedWord_matches (by omega) complete).bind ?_
  rintro _ front rfl
  refine (jump_matches addressable (by omega) front).bind ?_
  rintro frontStart _ rfl
  refine (jump_matches addressable (by omega) back).bind ?_
  rintro backStart _ rfl
  exact .ok rfl

theorem call_matches (addressable : Addressable data) (inside : position + 2 ≤ data.size) :
    Matches (fun called instruction => instruction = .call called.1 called.2.1 called.2.2)
      (call data position) (callAt data position) := by
  rw [call, callAt, fits_of_le addressable (by rw [maxWord]; omega), ok_bind]
  refine (slice_matches addressable _ _).bind ?_
  rintro _ _ ⟨rfl, complete⟩
  simp only [callSize, callJumpField] at complete ⊢
  refine (readSignedWord_matches (by omega) complete).bind ?_
  rintro _ word rfl
  refine (readVector_matches (by omega) complete).bind ?_
  rintro _ offset rfl
  refine (readSignedWord_matches (by omega) complete).bind ?_
  rintro _ far rfl
  simp only
  split_ifs with unusable
  · exact .error _
  · refine (jump_matches addressable (by omega) far).bind ?_
    rintro target _ rfl
    exact .ok rfl

theorem pointsHeader_matches (addressable : Addressable data)
    (inside : position + 2 ≤ data.size) :
    Matches (fun header instruction => ∃ positions : List FixedVector,
        instruction = .points header.1 positions ∧ header.2.1 = positions.length ∧
        header.2.2 = ⟨position + pointsHeaderSize,
          position + pointsHeaderSize + positions.length * FixedVector.byteSize⟩ ∧
        Holds data (position + pointsHeaderSize) (positions.flatMap FixedVector.bytes))
      (pointsHeader data position) (pointsAt data position) := by
  rw [pointsHeader, pointsAt, fits_of_le addressable (by rw [maxWord]; omega), ok_bind]
  refine (slice_matches addressable _ _).bind ?_
  rintro _ _ ⟨rfl, complete⟩
  simp only [pointsHeaderSize] at complete ⊢
  obtain ⟨countWord, countRead⟩ : ∃ word, signedWordAt data (position + 2) = .ok word :=
    exists_signedWordAt (by omega)
  obtain ⟨firstWord, firstRead⟩ : ∃ word, signedWordAt data (position + 4) = .ok word :=
    exists_signedWordAt (by omega)
  rw [readSignedWord_eq (by omega) countRead, countRead, ok_bind, ok_bind]
  simp only
  rw [readSignedWord_eq (by omega) firstRead, ok_bind]
  simp only [firstRead, ok_bind]
  refine (Matches.of_format (countOfWord position countWord 0)).bind ?_
  rintro count _ ⟨rfl, counted⟩
  refine (Matches.of_format (countOfWord position firstWord 0)).bind ?_
  rintro first _ ⟨rfl, based⟩
  have countFits := (countOfWord_eq_ok.mp counted).2.1
  have firstFits := (countOfWord_eq_ok.mp based).2.1
  rw [maxWord] at countFits firstFits
  rw [fits_of_le addressable (by rw [maxWord]; omega), ok_bind,
    fits_of_lt (by rw [FixedVector.byteSize]; omega), ok_bind]
  refine (slice_matches addressable _ _).bind ?_
  rintro _ _ ⟨rfl, whole⟩
  rw [fits_of_lt (by omega), ok_bind,
    fits_of_lt (by rw [pointsSize, pointsHeaderSize, FixedVector.byteSize]; omega), ok_bind]
  obtain ⟨positions, block⟩ :=
    exists_mapM_range_eq_ok fun index inRange => exists_element whole inRange
  obtain ⟨rfl, each⟩ := mapM_range_eq_ok.mp block
  simp only [vector_readAt_eq_ok] at each
  rw [block, ok_bind]
  exact .ok ⟨positions, rfl, rfl, rfl,
    (holds_flatMap_iff fun vector _ => length_vector_bytes vector).mpr each⟩

/-- A vertex takes its place from the number of its corner alone. -/
theorem vertexOf_eq (points : Array (Option FixedVector)) (position : Nat) (corner : Corner) :
    Execution.vertexOf points position corner =
      (Execution.vertexOf points position ⟨corner.index, none⟩).map
        fun vertex => { vertex with uv := corner.uv } := by
  simp only [Execution.vertexOf]
  split <;> rfl

section Vertices

variable {points : Array (Option FixedVector)} {corners : List Corner} {indexStart stop : Nat}

/-- Without texture coordinates, a vertex is read from its number alone. -/
theorem vertices_eq_plain (plain : ∀ corner ∈ corners, corner.uv.isSome = false)
    (indices : Holds data indexStart (corners.flatMap fun corner => signedWordBytes corner.index))
    (indexRoom : indexStart + corners.length * 2 ≤ stop) (uvs : Slice) :
    vertices data points position false corners.length ⟨indexStart, stop⟩ uvs =
      (corners.mapM (Execution.vertexOf points position)).mapError
        fun cause => .error (.format cause) := by
  induction corners generalizing indexStart with
  | nil => rfl
  | cons corner rest ih =>
      rw [List.flatMap_cons, holds_append, length_signedWordBytes] at indices
      rw [List.length_cons] at indexRoom
      obtain ⟨index, uv⟩ := corner
      obtain rfl : uv = none := by simpa using plain ⟨index, uv⟩ List.mem_cons_self
      have restPlain : ∀ other ∈ rest, other.uv.isSome = false :=
        fun other member => plain other (List.mem_cons_of_mem _ member)
      rw [List.length_cons, vertices,
        readSignedWord_eq (by omega) (signedWordAt_eq_ok.mpr indices.1), ok_bind, List.mapM_cons]
      simp only
      cases Execution.vertexOf points position ⟨index, none⟩ with
      | error cause => rfl
      | ok vertex =>
          have isPlaced : (liftM (Except.ok vertex : Except FormatError Vertex) :
              Except Halt Vertex) = .ok vertex := rfl
          rw [isPlaced, ok_bind, if_neg (by simp), ih restPlain indices.2 (by omega)]
          cases rest.mapM (Execution.vertexOf points position) <;> rfl

/-- With texture coordinates, a vertex is read from two lists. -/
theorem vertices_eq_textured {uvStart : Nat}
    (textured : ∀ corner ∈ corners, corner.uv.isSome = true)
    (indices : Holds data indexStart (corners.flatMap fun corner => signedWordBytes corner.index))
    (uvs : Holds data uvStart (uvBytes corners))
    (indexRoom : indexStart + corners.length * 2 ≤ stop)
    (uvRoom : uvStart + corners.length * FixedVector.byteSize ≤ stop) :
    vertices data points position true corners.length ⟨indexStart, stop⟩ ⟨uvStart, stop⟩ =
      (corners.mapM (Execution.vertexOf points position)).mapError
        fun cause => .error (.format cause) := by
  induction corners generalizing indexStart uvStart with
  | nil => rfl
  | cons corner rest ih =>
      rw [List.flatMap_cons, holds_append, length_signedWordBytes] at indices
      rw [uvBytes, List.flatMap_cons, holds_append] at uvs
      rw [List.length_cons, FixedVector.byteSize] at uvRoom
      rw [List.length_cons] at indexRoom
      obtain ⟨uv, isUv⟩ := Option.isSome_iff_exists.mp (textured corner List.mem_cons_self)
      have restTextured : ∀ other ∈ rest, other.uv.isSome = true :=
        fun other member => textured other (List.mem_cons_of_mem _ member)
      rw [isUv] at uvs
      have later : Holds data (uvStart + 12) (uvBytes rest) := uvs.2
      rw [List.length_cons, vertices,
        readSignedWord_eq (by omega) (signedWordAt_eq_ok.mpr indices.1), ok_bind, List.mapM_cons,
        vertexOf_eq points position corner, isUv]
      simp only
      cases Execution.vertexOf points position ⟨corner.index, none⟩ with
      | error cause => rfl
      | ok vertex =>
          have isPlaced : (liftM (Except.ok vertex : Except FormatError Vertex) :
              Except Halt Vertex) = .ok vertex := rfl
          rw [isPlaced, ok_bind, if_pos trivial,
            readVector_eq (by omega) (vector_readAt_eq_ok.mpr uvs.1), ok_bind]
          simp only
          rw [ih restTextured indices.2 later (by omega) (by
            rw [FixedVector.byteSize]
            omega)]
          cases rest.mapM (Execution.vertexOf points position) <;> rfl

theorem vertices_eq {textured : Bool} {uvStart : Nat}
    (painted : ∀ corner ∈ corners, corner.uv.isSome = textured)
    (indices : Holds data indexStart (corners.flatMap fun corner => signedWordBytes corner.index))
    (uvs : Holds data uvStart (uvBytes corners))
    (indexRoom : indexStart + corners.length * 2 ≤ stop)
    (uvRoom : textured = true → uvStart + corners.length * FixedVector.byteSize ≤ stop) :
    vertices data points position textured corners.length ⟨indexStart, stop⟩ ⟨uvStart, stop⟩ =
      (corners.mapM (Execution.vertexOf points position)).mapError
        fun cause => .error (.format cause) := by
  cases textured with
  | false => exact vertices_eq_plain painted indices indexRoom _
  | true => exact vertices_eq_textured painted indices uvs indexRoom (uvRoom rfl)

end Vertices

theorem le_indexListLength (count : Nat) : count ≤ indexListLength count := by
  rw [indexListLength]
  split_ifs <;> omega

theorem polygonSize_lt {count : Nat} (small : count ≤ maxWord) (textured : Bool) :
    polygonSize count textured < 18446744073709551616 := by
  rw [maxWord] at small
  rw [polygonSize, polygonHeaderSize, indexListLength, FixedVector.byteSize]
  split_ifs <;> omega

/-- The vertices of a polygon make the face that it draws. -/
theorem face_matches (points : Array (Option FixedVector)) (position size : Nat)
    (found : Polygon) :
    Matches Eq
      (((found.corners.mapM (Execution.vertexOf points position)).mapError
          fun cause => (.error (.format cause) : Halt)) >>= fun vertices =>
        (.ok (⟨vertices, found.point, found.normal, found.surface⟩, size) :
          Except Halt (Face × Nat)))
      ((liftM (Execution.faceOf points position found) : Except Error Face) >>= fun face =>
        .ok (face, size)) := by
  rw [Execution.faceOf]
  cases found.corners.mapM (Execution.vertexOf points position) with
  | error cause => exact .error cause
  | ok vertices => exact .ok rfl

/-- What a checked polygon has to give: the face, if all points are known, and the size. -/
def drawnAt (data : Array UInt8) (points : Array (Option FixedVector)) (position : Nat)
    (textured : Bool) : Except Error (Face × Nat) := do
  match ← polygonAt data position textured with
  | .draw found =>
      let face ← Execution.faceOf points position found
      return (face, polygonSize found.corners.length found.surface.isTextured)
  | _ => throw .unfinished

theorem polygon_matches (addressable : Addressable data) (inside : position + 2 ≤ data.size)
    (points : Array (Option FixedVector)) (textured : Bool) :
    Matches Eq (polygon data points position textured) (drawnAt data points position textured) := by
  rw [polygon, drawnAt, polygonAt, fits_of_le addressable (by rw [maxWord]; omega), ok_bind]
  simp only [bind_assoc, pure_bind]
  refine (slice_matches addressable _ _).bind ?_
  rintro _ _ ⟨rfl, complete⟩
  simp only [polygonHeaderSize] at complete ⊢
  refine (readSignedWord_matches (by omega) complete).bind ?_
  rintro _ countWord rfl
  refine (Matches.of_format (countOfWord position countWord 3)).bind ?_
  rintro count _ ⟨rfl, counted⟩
  refine (readVector_matches (by omega) complete).bind ?_
  rintro _ point rfl
  refine (readVector_matches (by omega) complete).bind ?_
  rintro _ normal rfl
  refine (readWord_matches (by omega) complete).bind ?_
  rintro _ paint rfl
  rw [fits_of_lt (polygonSize_lt (countOfWord_eq_ok.mp counted).2.1 textured), ok_bind]
  refine (slice_matches addressable _ _).bind ?_
  rintro _ _ ⟨rfl, whole⟩
  rw [polygonSize, polygonHeaderSize] at whole ⊢
  have listed := le_indexListLength count
  obtain ⟨corners, cornersRead⟩ := exists_corners
    (show position + 30 + count * 2 ≤ data.size by omega)
    (show textured = true →
        position + 30 + indexListLength count * 2 + count * FixedVector.byteSize ≤ data.size by
      rintro rfl; rw [if_pos rfl] at whole; omega)
  rw [cornersRead, ok_bind]
  obtain ⟨rfl, indices, painted, uvs⟩ := corners_eq_ok.mp cornersRead
  have uvRoom : textured = true → position + (30 + indexListLength corners.length * 2) +
      corners.length * FixedVector.byteSize ≤
        position + (30 + indexListLength corners.length * 2 +
          if textured then corners.length * FixedVector.byteSize else 0) := by
    rintro rfl
    rw [if_pos rfl]
    omega
  rw [Slice.drop, if_pos (by simp only; omega), ok_bind, Slice.drop, if_pos (by simp only; omega),
    ok_bind, vertices_eq painted indices (by rwa [Nat.add_assoc] at uvs) (by omega) uvRoom]
  cases textured with
  | false => exact face_matches points position _ ⟨corners, point, normal, .flat paint⟩
  | true => exact face_matches points position _ ⟨corners, point, normal, .textured paint⟩

/-- The opcode decides how the rest of an instruction is read, also where that fails. -/
theorem at_eq_of_word {word : UInt16} (wordRead : wordAt data position = .ok word)
    (inside : position + 2 ≤ data.size) :
    Instruction.at data position =
      (liftM (Opcode.ofWord word position) >>= fun opcode =>
        match opcode with
        | .stop => .ok .stop
        | .points | .pointsFrom => pointsAt data position
        | .flatPolygon => polygonAt data position false
        | .texturedPolygon => polygonAt data position true
        | .sort => sortAt data position
        | .call => callAt data position) := by
  have required : require data position stopSize = .ok () := require_eq_ok.mpr inside
  rw [Instruction.at, required, wordRead]
  change ((liftM (Opcode.ofWord word position) : Except Error Opcode) >>= _) = _
  cases Opcode.ofWord word position with
  | error cause => rfl
  | ok opcode => cases opcode <;> rfl

end Instructions

end PaintOrder.Code.Checked
