import Mathlib.Algebra.Order.Ring.Nat
import Mathlib.Data.Nat.ModEq
import Mathlib.Tactic.Ring

/-! Byte strings read at offsets. Numbers stand with their highest byte first. A
read past the end of a buffer has no result. -/

namespace Enigma

namespace ByteBuffer

/-- The low-order bytes of a number, the highest first. -/
def encode : Nat → Nat → List UInt8
  | 0, _ => []
  | width + 1, value => UInt8.ofNat (value / 256 ^ width) :: encode width value

def decode (bytes : List UInt8) : Nat := bytes.foldl (fun total byte => total * 256 + byte.toNat) 0

/-- The bytes of a buffer from an offset on, so many of them. -/
def slice (buffer : List UInt8) (offset length : Nat) : Option (List UInt8) :=
  if offset + length ≤ buffer.length then some ((buffer.drop offset).take length) else none

/-- The number that stands at an offset. -/
def number (width : Nat) (buffer : List UInt8) (offset : Nat) : Option Nat := (slice buffer offset width).map decode

@[simp] theorem length_encode (width value : Nat) : (encode width value).length = width := by
  induction width with
  | zero => rfl
  | succ width ih => simp [encode, ih]

/-- Decoding gives back what the width holds of the number. -/
theorem decode_encode (width value : Nat) : decode (encode width value) = value % 256 ^ width := by
  have general : ∀ start, (encode width value).foldl (fun total byte => total * 256 + byte.toNat) start =
      start * 256 ^ width + value % 256 ^ width := by
    induction width with
    | zero => simp [encode, Nat.mod_one]
    | succ width ih =>
      intro start
      have split : value % 256 ^ (width + 1) = 256 ^ width * (value / 256 ^ width % 256) + value % 256 ^ width := by
        rw [pow_succ, Nat.mod_mul, add_comm]
      rw [encode, List.foldl_cons, ih, split, UInt8.toNat_ofNat']
      ring
  have whole := general 0
  rw [zero_mul, zero_add] at whole
  exact whole

/-- Of two numbers that the width holds the smaller one has the smaller bytes. -/
theorem encode_lt {width value other : Nat} (less : value % 256 ^ width < other % 256 ^ width) :
    encode width value < encode width other := by
  induction width with
  | zero => simp [Nat.mod_one] at less
  | succ width ih =>
    have split : ∀ number, number % 256 ^ (width + 1) =
        256 ^ width * (number / 256 ^ width % 256) + number % 256 ^ width := by
      intro number
      rw [pow_succ, Nat.mod_mul, add_comm]
    rw [split, split] at less
    rw [encode, encode, List.cons_lt_cons_iff, UInt8.lt_iff_toNat_lt, UInt8.toNat_ofNat', UInt8.toNat_ofNat',
      ← UInt8.toNat_inj, UInt8.toNat_ofNat', UInt8.toNat_ofNat']
    have inside := Nat.mod_lt value (Nat.pow_pos (n := width) (show 0 < 256 by decide))
    have otherInside := Nat.mod_lt other (Nat.pow_pos (n := width) (show 0 < 256 by decide))
    change value / 256 ^ width % 256 < other / 256 ^ width % 256 ∨
      value / 256 ^ width % 256 = other / 256 ^ width % 256 ∧ _
    rcases lt_trichotomy (value / 256 ^ width % 256) (other / 256 ^ width % 256) with smaller | same | larger
    · exact .inl smaller
    · refine .inr ⟨same, ih ?_⟩
      rw [same] at less
      omega
    · have room := Nat.mul_le_mul_left (256 ^ width) larger
      rw [Nat.mul_succ] at room
      omega

theorem decode_cons (byte : UInt8) (bytes : List UInt8) :
    decode (byte :: bytes) = byte.toNat * 256 ^ bytes.length + decode bytes := by
  have general : ∀ (bytes : List UInt8) (start : Nat), bytes.foldl (fun total byte => total * 256 + byte.toNat) start =
      start * 256 ^ bytes.length + bytes.foldl (fun total byte => total * 256 + byte.toNat) 0 := by
    intro bytes
    induction bytes with
    | nil => simp
    | cons byte later ih =>
      intro start
      rw [List.foldl_cons, List.foldl_cons, ih, ih (0 * 256 + byte.toNat), List.length_cons]
      ring
  rw [decode, List.foldl_cons, general, zero_mul, zero_add]
  rfl

theorem decode_lt (bytes : List UInt8) : decode bytes < 256 ^ bytes.length := by
  induction bytes with
  | nil => simp [decode]
  | cons byte later ih =>
    have small := byte.toNat_lt
    have room : byte.toNat * 256 ^ later.length ≤ 255 * 256 ^ later.length := Nat.mul_le_mul_right _ (by omega)
    rw [decode_cons, List.length_cons, pow_succ']
    omega

/-- Bytes of one length are told apart by their number. -/
theorem decode_injective {bytes other : List UInt8} (length : bytes.length = other.length)
    (same : decode bytes = decode other) : bytes = other := by
  induction bytes generalizing other with
  | nil => exact (List.eq_nil_of_length_eq_zero length.symm).symm
  | cons byte later ih =>
    obtain ⟨another, rest, rfl⟩ := List.exists_cons_of_length_eq_add_one length.symm
    rw [List.length_cons, List.length_cons, Nat.add_right_cancel_iff] at length
    have positive : 0 < 256 ^ rest.length := Nat.pow_pos (by decide)
    have low := decode_lt later
    have otherLow := decode_lt rest
    rw [decode_cons, decode_cons, length] at same
    rw [length] at low
    have high := congrArg (· / 256 ^ rest.length) same
    simp only [Nat.add_comm (_ * _), Nat.add_mul_div_right _ _ positive, Nat.div_eq_of_lt low, Nat.div_eq_of_lt otherLow,
      zero_add] at high
    cases UInt8.toNat_inj.mp high
    rw [ih length (Nat.add_left_cancel same)]

theorem encode_decode (bytes : List UInt8) : encode bytes.length (decode bytes) = bytes := by
  apply decode_injective (length_encode _ _)
  rw [decode_encode, Nat.mod_eq_of_lt (decode_lt bytes)]

theorem decode_append (front back : List UInt8) : decode (front ++ back) = decode front * 256 ^ back.length + decode back := by
  induction front with
  | nil => simp [decode]
  | cons byte later ih =>
    rw [List.cons_append, decode_cons, decode_cons, ih, List.length_append, pow_add]
    ring

theorem decode_zeros (count : Nat) : decode (List.replicate count 0) = 0 := by
  induction count with
  | zero => rfl
  | succ count ih => simp [List.replicate_succ, decode_cons, ih]

/-- A buffer that goes on with certain bytes at an offset. -/
structure At (buffer : List UInt8) (offset : Nat) (rest : List UInt8) : Prop where
  inside : offset ≤ buffer.length
  bytes : buffer.drop offset = rest

variable {buffer : List UInt8} {offset : Nat}

theorem at_start (buffer : List UInt8) : At buffer 0 buffer := ⟨Nat.zero_le _, rfl⟩

theorem at_append (front rest : List UInt8) : At (front ++ rest) front.length rest :=
  ⟨by simp, by simp⟩

theorem At.length {rest : List UInt8} (here : At buffer offset rest) : buffer.length = offset + rest.length := by
  have inside := here.inside
  rw [← here.bytes, List.length_drop]
  omega

theorem At.after {front rest : List UInt8} (here : At buffer offset (front ++ rest)) :
    At buffer (offset + front.length) rest := by
  refine ⟨?_, ?_⟩
  · rw [here.length, List.length_append]
    omega
  · rw [← List.drop_drop, here.bytes, List.drop_left]

theorem At.slice {front rest : List UInt8} (here : At buffer offset (front ++ rest)) :
    slice buffer offset front.length = some front := by
  have inside : offset + front.length ≤ buffer.length := by
    rw [here.length, List.length_append]
    omega
  simp only [ByteBuffer.slice, inside, ↓reduceIte, here.bytes, List.take_left]

theorem At.number {width value : Nat} {rest : List UInt8} (here : At buffer offset (encode width value ++ rest)) :
    number width buffer offset = some (value % 256 ^ width) := by
  have bytes := here.slice
  rw [length_encode] at bytes
  rw [ByteBuffer.number, bytes, Option.map_some, decode_encode]

theorem At.after_number {width value : Nat} {rest : List UInt8} (here : At buffer offset (encode width value ++ rest)) :
    At buffer (offset + width) rest := by
  have next := here.after
  rwa [length_encode] at next

theorem slice_inside {length : Nat} {bytes : List UInt8} (found : slice buffer offset length = some bytes) :
    offset + length ≤ buffer.length := by
  unfold slice at found
  split at found
  · assumption
  · cases found

end ByteBuffer

end Enigma
