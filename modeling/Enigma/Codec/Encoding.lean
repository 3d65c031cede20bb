import Enigma.Foundation.ByteBuffer
import Enigma.Storage.Types

/-! The integers of the file formats, highest byte first, and the buffers that
files are read into. -/

namespace Enigma

/-- Not an error of the code: a read past the end of a buffer, whose outcome
nothing defines, ends the run here. -/
def overrun : Error := ⟨.unexpectedErr, "read past the end of a buffer"⟩

def inBounds {α : Type} : Option α → Except Error α
  | some value => .ok value
  | none => .error overrun

abbrev encodeUint8 (value : Nat) : Bytes := ByteBuffer.encode 1 value

abbrev encodeUint16 (value : Nat) : Bytes := ByteBuffer.encode 2 value

abbrev encodeUint32 (value : Nat) : Bytes := ByteBuffer.encode 4 value

abbrev encodeUint64 (value : Nat) : Bytes := ByteBuffer.encode 8 value

def decodeUint (width : Nat) (buffer : Bytes) (offset : Nat) : Except Error Nat :=
  inBounds (ByteBuffer.number width buffer offset)

abbrev decodeUint8 (buffer : Bytes) (offset : Nat) : Except Error Nat := decodeUint 1 buffer offset

abbrev decodeUint16 (buffer : Bytes) (offset : Nat) : Except Error Nat := decodeUint 2 buffer offset

abbrev decodeUint32 (buffer : Bytes) (offset : Nat) : Except Error Nat := decodeUint 4 buffer offset

abbrev decodeUint64 (buffer : Bytes) (offset : Nat) : Except Error Nat := decodeUint 8 buffer offset

/-- The bytes from one pointer into a buffer to another. -/
def bytesAt (buffer : Bytes) (offset length : Nat) : Except Error Bytes :=
  inBounds (ByteBuffer.slice buffer offset length)

/-- The number in a field of a buffer that reaches so far. -/
def fieldAt (buffer : Bytes) (offset width : Nat) : Nat := ByteBuffer.decode ((buffer.drop offset).take width)

/-- What `IOEngine::read` finds of a file from an offset on. -/
def readFile (file : Bytes) (count offset : Nat) : Bytes := (file.drop offset).take count

/-- A buffer, resized, after a read into it. Where the file ends early it keeps
its old bytes, or the zeros that it grew by. -/
def readInto (old file : Bytes) (count offset : Nat) : Bytes :=
  readFile file count offset ++ ((old ++ List.replicate count 0).take count).drop (readFile file count offset).length

/-- `pread` has a signed offset, and refuses a negative one. -/
def negativeOffset : Error := ⟨.readErr, "Invalid argument"⟩

/-- A buffer, resized, after `IOEngine::read` with offsets of 64 bits. For no bytes
the file is not asked. -/
def readBuffer (old file : Bytes) (count offset : Nat) : Except Error Bytes :=
  if count ≠ 0 ∧ 2 ^ 63 ≤ offset then .error negativeOffset else .ok (readInto old file count offset)

/-- What a computation with a result went through. -/
theorem exists_of_bind_ok {α β : Type} {first : Except Error α} {next : α → Except Error β} {result : β}
    (ok : first >>= next = .ok result) : ∃ value, first = .ok value ∧ next value = .ok result := by
  cases first with
  | error error => cases ok
  | ok value => exact ⟨value, rfl, ok⟩

variable {buffer : Bytes} {offset : Nat}

theorem decodeUint_at {width value : Nat} {rest : Bytes}
    (here : ByteBuffer.At buffer offset (ByteBuffer.encode width value ++ rest)) :
    decodeUint width buffer offset = .ok (value % 2 ^ (8 * width)) := by
  rw [decodeUint, here.number, pow_mul]
  rfl

theorem decodeUint_inside {width : Nat} (inside : offset + width ≤ buffer.length) :
    decodeUint width buffer offset = .ok (fieldAt buffer offset width) := by
  simp only [fieldAt, decodeUint, ByteBuffer.number, ByteBuffer.slice, inside, ↓reduceIte]
  rfl

theorem fieldAt_lt (buffer : Bytes) (offset width : Nat) : fieldAt buffer offset width < 256 ^ width := by
  refine (ByteBuffer.decode_lt _).trans_le (Nat.pow_le_pow_right (by decide) ?_)
  rw [List.length_take]
  omega

theorem decodeUint_lt {width value : Nat} (read : decodeUint width buffer offset = .ok value) : value < 256 ^ width := by
  by_cases inside : offset + width ≤ buffer.length
  · rw [decodeUint_inside inside] at read
    exact Except.ok.inj read ▸ fieldAt_lt buffer offset width
  · simp only [decodeUint, ByteBuffer.number, ByteBuffer.slice, inside, ↓reduceIte] at read
    cases read

theorem encode_fieldAt {width : Nat} (inside : offset + width ≤ buffer.length) :
    ByteBuffer.encode width (fieldAt buffer offset width) = (buffer.drop offset).take width := by
  have length : ((buffer.drop offset).take width).length = width := by
    rw [List.length_take, List.length_drop]
    omega
  have bytes := ByteBuffer.encode_decode ((buffer.drop offset).take width)
  rwa [length] at bytes

theorem bytesAt_at {front rest : Bytes} (here : ByteBuffer.At buffer offset (front ++ rest)) :
    bytesAt buffer offset front.length = .ok front := by
  rw [bytesAt, here.slice]
  rfl

theorem bytesAt_within {length : Nat} (inside : offset + length ≤ buffer.length) :
    bytesAt buffer offset length = .ok ((buffer.drop offset).take length) := by
  simp only [bytesAt, ByteBuffer.slice, inside, ↓reduceIte]
  rfl

theorem bytesAt_inside {length : Nat} {bytes : Bytes} (found : bytesAt buffer offset length = .ok bytes) :
    offset + length ≤ buffer.length := by
  cases read : ByteBuffer.slice buffer offset length with
  | some slice => exact ByteBuffer.slice_inside read
  | none =>
    rw [bytesAt, read] at found
    cases found

theorem length_bytesAt {length : Nat} {bytes : Bytes} (found : bytesAt buffer offset length = .ok bytes) :
    bytes.length = length := by
  have inside := bytesAt_inside found
  rw [bytesAt_within inside] at found
  rw [← Except.ok.inj found, List.length_take, List.length_drop]
  omega

@[simp] theorem length_readInto (old file : Bytes) (count offset : Nat) :
    (readInto old file count offset).length = count := by
  simp only [readInto, readFile, List.length_append, List.length_take, List.length_drop, List.length_replicate]
  omega

theorem readBuffer_ok {old file : Bytes} {count offset : Nat} (small : offset < 2 ^ 63) :
    readBuffer old file count offset = .ok (readInto old file count offset) :=
  if_neg fun both => absurd both.2 (not_le.mpr small)

theorem readBuffer_eq {old file read : Bytes} {count offset : Nat}
    (answer : readBuffer old file count offset = .ok read) :
    read = readInto old file count offset := by
  rw [readBuffer] at answer
  split at answer
  · cases answer
  · exact (Except.ok.inj answer).symm

theorem length_readBuffer {old file read : Bytes} {count offset : Nat}
    (answer : readBuffer old file count offset = .ok read) :
    read.length = count := by
  rw [readBuffer_eq answer, length_readInto]

/-- A read that the file covers. -/
theorem readInto_at (old : Bytes) {file front rest : Bytes} (here : ByteBuffer.At file offset (front ++ rest)) :
    readInto old file front.length offset = front := by
  have whole : readFile file front.length offset = front := by
    rw [readFile, here.bytes, List.take_left]
  rw [readInto, whole, List.drop_of_length_le (by simp), List.append_nil]

end Enigma
