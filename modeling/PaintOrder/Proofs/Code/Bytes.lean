import Mathlib.Data.Nat.Bitwise
import Mathlib.Tactic.Ring
import PaintOrder.Code.Bytes
import PaintOrder.Proofs.Outcome

/-!
# Reading back what was written

A number is read from the position at which its bytes were written, whatever surrounds them.
What is known of a byte string is which bytes it holds at which position; runs of bytes are
split and joined there, so that instructions can be read field by field.
-/

namespace PaintOrder.Code

/-- A byte string holds a run of bytes from a position on. -/
def Holds (data : Array UInt8) : Nat → List UInt8 → Prop
  | _, [] => True
  | position, byte :: rest => data[position]? = some byte ∧ Holds data (position + 1) rest

section Holds

variable {data : Array UInt8} {position : Nat}

theorem holds_append {first second : List UInt8} :
    Holds data position (first ++ second) ↔
      Holds data position first ∧ Holds data (position + first.length) second := by
  induction first generalizing position with
  | nil => simp [Holds]
  | cons byte rest ih =>
      have shift : position + 1 + rest.length = position + (rest.length + 1) := by omega
      simp only [List.cons_append, Holds, List.length_cons, ih, shift]
      exact and_assoc.symm

/-- Bytes hold where they stand in the whole. -/
theorem holds_of_toList_eq {before bytes after : List UInt8}
    (whole : data.toList = before ++ bytes ++ after) : Holds data before.length bytes := by
  have all : ∀ (bytes before : List UInt8), data.toList = before ++ bytes ++ after →
      Holds data before.length bytes := by
    intro bytes
    induction bytes with
    | nil => simp [Holds]
    | cons byte rest ih =>
        intro before whole
        have here : data[before.length]? = some byte := by
          rw [← Array.getElem?_toList, whole]
          simp
        have later := ih (before ++ [byte]) (by simpa using whole)
        exact ⟨here, by simpa using later⟩
  exact all bytes before whole

theorem Holds.le_size {bytes : List UInt8} (holds : Holds data position bytes)
    (nonempty : bytes ≠ []) : position + bytes.length ≤ data.size := by
  induction bytes generalizing position with
  | nil => exact absurd rfl nonempty
  | cons byte rest ih =>
      obtain ⟨here, later⟩ := holds
      obtain ⟨inside, _⟩ := Array.getElem?_eq_some_iff.mp here
      cases rest with
      | nil =>
          simp only [List.length_cons, List.length_nil]
          omega
      | cons next rest =>
          have := ih later (by simp)
          simp only [List.length_cons] at this ⊢
          omega

end Holds

section Numbers

theorem mod_or_shift (number half : Nat) :
    number % 2 ^ half ||| (number >>> half) <<< half = number := by
  apply Nat.eq_of_testBit_eq
  intro place
  by_cases low : place < half
  · simp [low]
  · simp [low, show half + (place - half) = place by omega, show half ≤ place by omega]

theorem word_of_bytes (word : UInt16) :
    word.toUInt8.toUInt16 ||| (word >>> 8).toUInt8.toUInt16 <<< 8 = word := by
  have small : word.toNat < 65536 := word.toNat_lt
  have high : word.toNat >>> 8 < 256 := by
    rw [Nat.shiftRight_eq_div_pow]
    omega
  have fits : (word.toNat >>> 8) <<< 8 < 65536 := by
    rw [Nat.shiftLeft_eq, Nat.shiftRight_eq_div_pow]
    omega
  apply UInt16.toNat_inj.mp
  simpa [Nat.mod_eq_of_lt high, Nat.mod_eq_of_lt fits] using mod_or_shift word.toNat 8

theorem low_of_or_shift {low half : Nat} (small : low < 2 ^ half) (high : Nat) :
    (low ||| high <<< half) % 2 ^ half = low := by
  rw [Nat.or_mod_two_pow, Nat.mod_eq_of_lt small, Nat.shiftLeft_eq, Nat.mul_mod_left,
    Nat.or_zero]

theorem high_of_or_shift {low half : Nat} (small : low < 2 ^ half) (high : Nat) :
    (low ||| high <<< half) >>> half = high := by
  rw [Nat.shiftRight_or_distrib, Nat.shiftLeft_shiftRight,
    Nat.shiftRight_eq_zero low half small, Nat.zero_or]

theorem wordBytes_of_bytes (low high : UInt8) :
    wordBytes (low.toUInt16 ||| high.toUInt16 <<< 8) = [low, high] := by
  have lowSmall : low.toNat < 2 ^ 8 := low.toNat_lt
  have fits : high.toNat <<< 8 < 65536 := by
    have := high.toNat_lt
    rw [Nat.shiftLeft_eq]
    omega
  have joined : (low.toUInt16 ||| high.toUInt16 <<< 8).toNat =
      low.toNat ||| high.toNat <<< 8 := by
    simp [Nat.mod_eq_of_lt fits]
  have lowByte : (low.toUInt16 ||| high.toUInt16 <<< 8).toUInt8 = low := by
    apply UInt8.toNat_inj.mp
    rw [UInt16.toNat_toUInt8, joined, low_of_or_shift lowSmall]
  have highByte : ((low.toUInt16 ||| high.toUInt16 <<< 8) >>> 8).toUInt8 = high := by
    apply UInt8.toNat_inj.mp
    rw [UInt16.toNat_toUInt8, UInt16.toNat_shiftRight, joined]
    simp [high_of_or_shift lowSmall]
  rw [wordBytes, lowByte, highByte]

theorem doubleWord_of_words (word : UInt32) :
    word.toUInt16.toUInt32 ||| (word >>> 16).toUInt16.toUInt32 <<< 16 = word := by
  have small : word.toNat < 4294967296 := word.toNat_lt
  have high : word.toNat >>> 16 < 65536 := by
    rw [Nat.shiftRight_eq_div_pow]
    omega
  have fits : (word.toNat >>> 16) <<< 16 < 4294967296 := by
    rw [Nat.shiftLeft_eq, Nat.shiftRight_eq_div_pow]
    omega
  apply UInt32.toNat_inj.mp
  simpa [Nat.mod_eq_of_lt high, Nat.mod_eq_of_lt fits] using mod_or_shift word.toNat 16

/-- Two words come back out of the double word that they make. -/
theorem words_of_doubleWord (low high : UInt16) :
    (low.toUInt32 ||| high.toUInt32 <<< 16).toUInt16 = low ∧
      ((low.toUInt32 ||| high.toUInt32 <<< 16) >>> 16).toUInt16 = high := by
  have lowSmall : low.toNat < 2 ^ 16 := low.toNat_lt
  have fits : high.toNat <<< 16 < 4294967296 := by
    have := high.toNat_lt
    rw [Nat.shiftLeft_eq]
    omega
  have joined : (low.toUInt32 ||| high.toUInt32 <<< 16).toNat =
      low.toNat ||| high.toNat <<< 16 := by
    simp [Nat.mod_eq_of_lt fits]
  constructor
  · apply UInt16.toNat_inj.mp
    rw [UInt32.toNat_toUInt16, joined, low_of_or_shift lowSmall]
  · apply UInt16.toNat_inj.mp
    rw [UInt32.toNat_toUInt16, UInt32.toNat_shiftRight, joined]
    simp [high_of_or_shift lowSmall]

theorem fixed_bytes_eq (number : Fixed) : number.bytes =
    wordBytes number.raw.toUInt32.toUInt16 ++
      wordBytes (number.raw.toUInt32 >>> 16).toUInt16 := by
  have second : ∀ word : UInt32, (word.toUInt16 >>> 8).toUInt8 = (word >>> 8).toUInt8 := by
    intro word
    apply UInt8.toNat_inj.mp
    simp [Nat.shiftRight_eq_div_pow]
    omega
  have fourth : ∀ word : UInt32, word >>> 16 >>> 8 = word >>> 24 := by
    intro word
    apply UInt32.toNat_inj.mp
    simp [Nat.shiftRight_eq_div_pow]
    omega
  simp [Fixed.bytes, wordBytes, second, fourth]

@[simp] theorem length_wordBytes (word : UInt16) : (wordBytes word).length = 2 := rfl

@[simp] theorem length_signedWordBytes (word : Int16) : (signedWordBytes word).length = 2 := rfl

@[simp] theorem length_fixed_bytes (number : Fixed) : number.bytes.length = 4 := rfl

@[simp] theorem length_vector_bytes (vector : FixedVector) :
    vector.bytes.length = FixedVector.byteSize := rfl

end Numbers

section Reading

variable {data : Array UInt8} {position : Nat}

theorem byteAt_eq_ok {byte : UInt8} :
    byteAt data position = .ok byte ↔ data[position]? = some byte := by
  rw [byteAt]
  cases data[position]? <;> simp

theorem wordAt_eq_ok {word : UInt16} :
    wordAt data position = .ok word ↔ Holds data position (wordBytes word) := by
  simp only [wordAt, bind_eq_ok, pure_eq_ok, byteAt_eq_ok]
  constructor
  · rintro ⟨low, lowHere, high, highHere, rfl⟩
    rw [wordBytes_of_bytes]
    exact ⟨lowHere, highHere, trivial⟩
  · rintro ⟨lowHere, highHere, _⟩
    exact ⟨_, lowHere, _, highHere, word_of_bytes word⟩

theorem signedWordAt_eq_ok {word : Int16} :
    signedWordAt data position = .ok word ↔ Holds data position (signedWordBytes word) := by
  simp only [signedWordAt, bind_eq_ok, pure_eq_ok, wordAt_eq_ok, signedWordBytes]
  constructor
  · rintro ⟨_, holds, rfl⟩
    exact holds
  · intro holds
    exact ⟨_, holds, rfl⟩

theorem fixed_readAt_eq_ok {number : Fixed} :
    Fixed.readAt data position = .ok number ↔ Holds data position number.bytes := by
  simp only [Fixed.readAt, bind_eq_ok, pure_eq_ok, wordAt_eq_ok, fixed_bytes_eq, holds_append,
    length_wordBytes]
  constructor
  · rintro ⟨low, lowHolds, high, highHolds, rfl⟩
    obtain ⟨lowWord, highWord⟩ := words_of_doubleWord low high
    rw [Int32.toUInt32, UInt32.toInt32, lowWord, highWord]
    exact ⟨lowHolds, highHolds⟩
  · rintro ⟨lowHolds, highHolds⟩
    refine ⟨_, lowHolds, _, highHolds, ?_⟩
    rw [doubleWord_of_words, UInt32.toInt32, Int32.toUInt32]

theorem vector_readAt_eq_ok {vector : FixedVector} :
    FixedVector.readAt data position = .ok vector ↔ Holds data position vector.bytes := by
  simp only [FixedVector.readAt, bind_eq_ok, pure_eq_ok, fixed_readAt_eq_ok, FixedVector.bytes,
    holds_append, List.length_append, length_fixed_bytes]
  constructor
  · rintro ⟨x, xHolds, y, yHolds, z, zHolds, rfl⟩
    exact ⟨⟨xHolds, yHolds⟩, zHolds⟩
  · rintro ⟨⟨xHolds, yHolds⟩, zHolds⟩
    exact ⟨_, xHolds, _, yHolds, _, zHolds, rfl⟩

/-- Elements of one size that are written one after the other are found at multiples of the
size. -/
theorem holds_flatMap {α : Type} {bytes : α → List UInt8} {size : Nat} {elements : List α}
    (sized : ∀ element ∈ elements, (bytes element).length = size)
    (holds : Holds data position (elements.flatMap bytes)) {index : Nat}
    (inRange : index < elements.length) :
    Holds data (position + index * size) (bytes elements[index]) := by
  induction elements generalizing position index with
  | nil => simp at inRange
  | cons element rest ih =>
      rw [List.flatMap_cons, holds_append, sized element (by simp)] at holds
      cases index with
      | zero => simpa using holds.1
      | succ index =>
          have shift : position + (index + 1) * size = position + size + index * size := by
            ring
          rw [shift]
          exact ih (fun other member => sized other (by simp [member])) holds.2
            (by simpa using inRange)

end Reading

end PaintOrder.Code
