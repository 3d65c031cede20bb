import Mathlib.Algebra.Order.Ring.Nat
import Mathlib.Data.Nat.Bitwise

/-! A register of four bytes that takes in one byte at a time: it drops its lowest
byte and mixes in an entry of a table. When the highest bytes of the table are all
different, the highest byte of a register tells which entry was mixed in last, so
steps can be undone. When the entries are what eight single bits leave behind, a step
is the same as eight steps of one bit, and the highest bytes are different because a
one that falls out shows in the highest bit. -/

namespace Enigma

namespace ShiftRegister

def step (table : Nat → Nat) (register byte : Nat) : Nat := register >>> 8 ^^^ table ((register ^^^ byte) % 256)

/-- The register after some bytes. -/
def feed (table : Nat → Nat) (register : Nat) (bytes : List UInt8) : Nat :=
  bytes.foldl (fun register byte => step table register byte.toNat) register

/-- A table of registers with different highest bytes. -/
structure Telling (table : Nat → Nat) : Prop where
  small : ∀ index < 256, table index < 2 ^ 32
  distinct : ∀ left < 256, ∀ right < 256, table left >>> 24 = table right >>> 24 → left = right

variable {table : Nat → Nat} {register other byte another : Nat}

theorem step_lt (telling : Telling table) (small : register < 2 ^ 32) : step table register byte < 2 ^ 32 := by
  refine Nat.xor_lt_two_pow ?_ (telling.small _ (Nat.mod_lt _ (by decide)))
  rw [Nat.shiftRight_eq_div_pow]
  omega

/-- Registers that agree above some bytes were mixed from the same entry, and
agreed above one byte more. -/
theorem step_back (telling : Telling table) (small : register < 2 ^ 32) (otherSmall : other < 2 ^ 32) {level : Nat}
    (low : level ≤ 3) (agree : step table register byte >>> (8 * level) = step table other another >>> (8 * level)) :
    (register ^^^ byte) % 256 = (other ^^^ another) % 256 ∧
      register >>> (8 * (level + 1)) = other >>> (8 * (level + 1)) := by
  have top : ∀ number < 2 ^ 32, number >>> 8 >>> 24 = 0 := by
    intro number small
    rw [Nat.shiftRight_eq_div_pow, Nat.shiftRight_eq_div_pow]
    omega
  have highest := congrArg (· >>> (24 - 8 * level)) agree
  simp only [← Nat.shiftRight_add, show 8 * level + (24 - 8 * level) = 24 by omega] at highest
  rw [step, step, Nat.shiftRight_xor_distrib, Nat.shiftRight_xor_distrib, top _ small, top _ otherSmall, Nat.zero_xor,
    Nat.zero_xor] at highest
  have same := telling.distinct _ (Nat.mod_lt _ (by decide)) _ (Nat.mod_lt _ (by decide)) highest
  refine ⟨same, ?_⟩
  rw [step, step, same, Nat.shiftRight_xor_distrib, Nat.shiftRight_xor_distrib, Nat.xor_left_inj] at agree
  rwa [← Nat.shiftRight_add, ← Nat.shiftRight_add, show 8 + 8 * level = 8 * (level + 1) by omega] at agree

theorem feed_lt (telling : Telling table) (small : register < 2 ^ 32) (bytes : List UInt8) :
    feed table register bytes < 2 ^ 32 := by
  induction bytes generalizing register with
  | nil => exact small
  | cons byte later ih => exact ih (step_lt telling small)

@[simp] theorem feed_append (front back : List UInt8) :
    feed table register (front ++ back) = feed table (feed table register front) back := List.foldl_append

theorem low_xor (register byte : Nat) : (register ^^^ byte) % 256 = register % 256 ^^^ byte % 256 :=
  Nat.xor_mod_two_pow (n := 8)

/-- The same byte leads different registers to different registers. -/
theorem step_injective (telling : Telling table) (small : register < 2 ^ 32) (otherSmall : other < 2 ^ 32)
    (same : step table register byte = step table other byte) : register = other := by
  obtain ⟨low, high⟩ := step_back telling small otherSmall (Nat.zero_le 3) (congrArg (· >>> (8 * 0)) same)
  rw [low_xor, low_xor, Nat.xor_left_inj] at low
  rw [Nat.shiftRight_eq_div_pow, Nat.shiftRight_eq_div_pow] at high
  omega

theorem feed_injective (telling : Telling table) (small : register < 2 ^ 32) (otherSmall : other < 2 ^ 32)
    {bytes : List UInt8} (same : feed table register bytes = feed table other bytes) : register = other := by
  induction bytes generalizing register other with
  | nil => exact same
  | cons byte later ih =>
    exact step_injective telling small otherSmall (ih (step_lt telling small) (step_lt telling otherSmall) same)

/-- Up to four bytes can be read off the register that they lead to. -/
theorem window_back (telling : Telling table) (small : register < 2 ^ 32) (otherSmall : other < 2 ^ 32)
    {window changed : List UInt8} (length : changed.length = window.length) {level : Nat}
    (short : level + window.length ≤ 4)
    (agree : feed table register window >>> (8 * level) = feed table other changed >>> (8 * level)) :
    register >>> (8 * (level + window.length)) = other >>> (8 * (level + window.length)) ∧
      (register = other → window = changed) := by
  induction window generalizing register other changed with
  | nil =>
    cases List.eq_nil_of_length_eq_zero length
    exact ⟨agree, fun _ => rfl⟩
  | cons byte later ih =>
    obtain ⟨another, rest, rfl⟩ := List.exists_cons_of_length_eq_add_one length
    rw [List.length_cons, List.length_cons] at length
    rw [List.length_cons] at short
    obtain ⟨above, unique⟩ := ih (step_lt telling small) (step_lt telling otherSmall) (by omega) (by omega) agree
    obtain ⟨low, high⟩ := step_back telling small otherSmall (by omega) above
    refine ⟨high, ?_⟩
    rintro rfl
    rw [low_xor, low_xor, Nat.xor_right_inj, Nat.mod_eq_of_lt byte.toNat_lt, Nat.mod_eq_of_lt another.toNat_lt] at low
    cases UInt8.toNat_inj.mp low
    rw [unique rfl]

/-- A change of up to four bytes in a row changes the register at the end. -/
theorem feed_burst (telling : Telling table) (small : register < 2 ^ 32) {front window changed back : List UInt8}
    (length : changed.length = window.length) (short : window.length ≤ 4) (differs : changed ≠ window) :
    feed table register (front ++ changed ++ back) ≠ feed table register (front ++ window ++ back) := by
  intro same
  rw [feed_append, feed_append, feed_append, feed_append] at same
  have before := feed_lt telling small front
  have middle := feed_injective telling (feed_lt telling before changed) (feed_lt telling before window) same
  have agree := congrArg (· >>> (8 * 0)) middle
  exact differs (((window_back telling before before length.symm (by omega) agree).2 rfl))

/-- One bit falls out of the register; a one mixes the polynomial in. -/
def bitStep (polynomial register : Nat) : Nat :=
  if register % 2 = 1 then register >>> 1 ^^^ polynomial else register >>> 1

def bitSteps (polynomial : Nat) : Nat → Nat → Nat
  | 0, register => register
  | count + 1, register => bitSteps polynomial count (bitStep polynomial register)

variable {polynomial : Nat}

theorem bitStep_xor (left right : Nat) :
    bitStep polynomial (left ^^^ right) = bitStep polynomial left ^^^ bitStep polynomial right := by
  have parity : (left ^^^ right) % 2 = (left + right) % 2 := Nat.xor_mod_two_eq
  have shifted : (left ^^^ right) >>> 1 = left >>> 1 ^^^ right >>> 1 := Nat.shiftRight_xor_distrib
  unfold bitStep
  rw [parity, shifted]
  rcases Nat.mod_two_eq_zero_or_one left with leftEven | leftOdd <;>
    rcases Nat.mod_two_eq_zero_or_one right with rightEven | rightOdd
  · rw [if_neg (by omega), if_neg (by omega), if_neg (by omega)]
  · rw [if_pos (by omega), if_neg (by omega), if_pos (by omega), Nat.xor_assoc]
  · rw [if_pos (by omega), if_pos (by omega), if_neg (by omega), Nat.xor_assoc, Nat.xor_comm (right >>> 1),
      Nat.xor_assoc]
  · rw [if_neg (by omega), if_pos (by omega), if_pos (by omega), Nat.xor_assoc, Nat.xor_comm (right >>> 1),
      ← Nat.xor_assoc polynomial, Nat.xor_self, Nat.zero_xor]

theorem bitSteps_xor (count left right : Nat) : bitSteps polynomial count (left ^^^ right) =
    bitSteps polynomial count left ^^^ bitSteps polynomial count right := by
  induction count generalizing left right with
  | zero => rfl
  | succ count ih =>
    unfold bitSteps
    rw [bitStep_xor, ih]

/-- Zeros fall out without a trace. -/
theorem bitSteps_shiftLeft (count register : Nat) : bitSteps polynomial count (register <<< count) = register := by
  induction count with
  | zero => rfl
  | succ count ih =>
    have even : bitStep polynomial (register <<< (count + 1)) = register <<< count := by
      rw [Nat.shiftLeft_succ, bitStep, if_neg (by omega), Nat.shiftRight_one]
      omega
    unfold bitSteps
    rw [even, ih]

/-- What the bits that fall out leave behind is mixed into the others. -/
theorem bitSteps_split (count register : Nat) :
    bitSteps polynomial count register = register >>> count ^^^ bitSteps polynomial count (register % 2 ^ count) := by
  have parts : register = (register >>> count) <<< count ^^^ register % 2 ^ count := by
    apply Nat.eq_of_testBit_eq
    intro place
    rw [Nat.testBit_xor, Nat.testBit_shiftLeft, Nat.testBit_shiftRight, Nat.testBit_mod_two_pow]
    by_cases low : place < count
    · simp [low, Nat.not_le_of_lt low]
    · simp [low, Nat.le_of_not_lt low]
  conv_lhs => rw [parts, bitSteps_xor, bitSteps_shiftLeft]

/-- With the highest bit in the polynomial, a one that falls out shows there. -/
theorem bitStep_back (highest : polynomial.testBit 31) (small : register < 2 ^ 32) {width : Nat} (narrow : width ≤ 31)
    (low : bitStep polynomial register < 2 ^ width) :
    register % 2 = 0 ∧ bitStep polynomial register = register / 2 := by
  rcases Nat.mod_two_eq_zero_or_one register with even | odd
  · refine ⟨even, ?_⟩
    rw [bitStep, if_neg (by omega), Nat.shiftRight_one]
  · have half : register / 2 < 2 ^ 31 := by omega
    have shown : (bitStep polynomial register).testBit 31 := by
      rw [bitStep, if_pos odd, Nat.shiftRight_one, Nat.testBit_xor, Nat.testBit_lt_two_pow half, highest]
      rfl
    have high := Nat.ge_two_pow_of_testBit shown
    have bound : 2 ^ width ≤ 2 ^ 31 := Nat.pow_le_pow_right (by decide) narrow
    omega

theorem bitStep_lt (bounded : polynomial < 2 ^ 32) (small : register < 2 ^ 32) :
    bitStep polynomial register < 2 ^ 32 := by
  have half : register >>> 1 < 2 ^ 32 := by
    rw [Nat.shiftRight_one]
    omega
  unfold bitStep
  split
  · exact Nat.xor_lt_two_pow half bounded
  · exact half

theorem bitSteps_lt (bounded : polynomial < 2 ^ 32) (small : register < 2 ^ 32) (count : Nat) :
    bitSteps polynomial count register < 2 ^ 32 := by
  induction count generalizing register with
  | zero => exact small
  | succ count ih => exact ih (bitStep_lt bounded small)

/-- A register that the steps leave low had only zeros to let fall. -/
theorem bitSteps_back (bounded : polynomial < 2 ^ 32) (highest : polynomial.testBit 31) (small : register < 2 ^ 32)
    {count width : Nat} (narrow : width + count ≤ 32) (low : bitSteps polynomial count register < 2 ^ width) :
    register < 2 ^ (width + count) ∧ register % 2 ^ count = 0 := by
  induction count generalizing register with
  | zero => exact ⟨low, Nat.mod_one register⟩
  | succ count ih =>
    obtain ⟨below, zeros⟩ := ih (bitStep_lt bounded small) (by omega) low
    obtain ⟨even, halved⟩ := bitStep_back highest small (by omega) below
    rw [halved] at below zeros
    rw [← Nat.add_assoc, Nat.pow_succ, Nat.pow_succ, Nat.mul_comm (2 ^ count), Nat.mod_mul, even, zeros]
    omega

/-- A table of what eight bits leave behind does eight steps at once. -/
theorem step_eq_bitSteps (tabulated : ∀ index < 256, table index = bitSteps polynomial 8 index) (small : byte < 256) :
    step table register byte = bitSteps polynomial 8 (register ^^^ byte) := by
  have dropped : (register ^^^ byte) >>> 8 = register >>> 8 := by
    rw [Nat.shiftRight_xor_distrib, Nat.shiftRight_eq_div_pow byte, Nat.div_eq_of_lt small, Nat.xor_zero]
  have split : bitSteps polynomial 8 (register ^^^ byte) =
      (register ^^^ byte) >>> 8 ^^^ bitSteps polynomial 8 ((register ^^^ byte) % 256) := bitSteps_split 8 _
  rw [split, dropped, step, tabulated _ (Nat.mod_lt _ (by decide))]

/-- The entries of such a table have different highest bytes. -/
theorem telling_of_bitSteps (bounded : polynomial < 2 ^ 32) (highest : polynomial.testBit 31)
    (tabulated : ∀ index < 256, table index = bitSteps polynomial 8 index) : Telling table where
  small := by
    intro index small
    rw [tabulated index small]
    exact bitSteps_lt bounded (small.trans (by decide)) 8
  distinct := by
    intro left leftSmall right rightSmall same
    have together : left ^^^ right < 2 ^ 8 := Nat.xor_lt_two_pow leftSmall rightSmall
    have low : bitSteps polynomial 8 (left ^^^ right) < 2 ^ 24 := by
      rw [bitSteps_xor, ← tabulated left leftSmall, ← tabulated right rightSmall]
      apply Nat.lt_of_div_eq_zero (by decide)
      rw [← Nat.shiftRight_eq_div_pow, Nat.shiftRight_xor_distrib, same, Nat.xor_self]
    have zeros := (bitSteps_back bounded highest (together.trans (by decide)) (by decide) low).2
    rw [Nat.mod_eq_of_lt together] at zeros
    exact Nat.xor_eq_zero_iff.mp zeros

end ShiftRegister

end Enigma
