import Enigma.Codec.Hash
import Mathlib.Tactic.IntervalCases

/-! The filter that a table carries over its keys. How large it is for so many
keys is computed in floating point; only what the rest relies on is kept of
that. -/

namespace Enigma

namespace BloomFilter

/-- The two numbers that the constructor takes from floating point for so many
keys: bits before rounding up to bytes, and hash functions before clamping. A
filter is empty exactly for no keys, as long as its bits are surely in range of
their type. -/
structure Sizing where
  bits : Nat → Nat
  hashes : Nat → Nat
  bits_eq_zero_iff : ∀ expectedKeys < 2 ^ 60, bits expectedKeys = 0 ↔ expectedKeys = 0

end BloomFilter

structure BloomFilter where
  bitCount : Nat
  numHashes : Nat
  bitArray : Bytes
  deriving DecidableEq

namespace BloomFilter

variable (sizing : Sizing)

/-- `BloomFilter(expected_keys, 0.01)`. -/
def new (expectedKeys : Nat) : BloomFilter :=
  let bitCount := (sizing.bits expectedKeys + 7) / 8 * 8
  ⟨bitCount, max 1 (min (sizing.hashes expectedKeys) 30), List.replicate ((bitCount + 7) / 8) 0⟩

/-- From the bytes in a table. -/
def ofBytes (bitArray : Bytes) (numHashes : Nat) : BloomFilter := ⟨bitArray.length * 8, numHashes, bitArray⟩

/-- The bit of one of the hash functions. For a filter without bits the code
divides by zero here. -/
def bitPos (filter : BloomFilter) (key : Key) (round : Nat) : Nat :=
  ((hash key 0xbc9f1d34).toNat + round * ((hash key 0x6c8e9cf5) ||| 1).toNat) % filter.bitCount

def setBit (bits : Bytes) (bitPos : Nat) : Bytes := bits.modify (bitPos / 8) (· ||| (1 <<< UInt8.ofNat (bitPos % 8)))

def bitSet (bits : Bytes) (bitPos : Nat) : Bool :=
  bits.getD (bitPos / 8) 0 &&& (1 <<< UInt8.ofNat (bitPos % 8)) ≠ 0

def setBits (filter : BloomFilter) (key : Key) (rounds : List Nat) (bits : Bytes) : Bytes :=
  rounds.foldl (fun bits round => setBit bits (filter.bitPos key round)) bits

def add (filter : BloomFilter) (key : Key) : BloomFilter :=
  { filter with bitArray := filter.setBits key (List.range filter.numHashes) filter.bitArray }

def mayContain (filter : BloomFilter) (key : Key) : Bool :=
  (List.range filter.numHashes).all fun round => bitSet filter.bitArray (filter.bitPos key round)

def sizeBytes (filter : BloomFilter) : Nat := filter.bitArray.length

/-- The constructor for loading, on `data()` and on `num_hashes()`, which is a byte. -/
def rebuilt (filter : BloomFilter) : BloomFilter := ofBytes filter.bitArray (filter.numHashes % 2 ^ 8)

/-- The bit in the 64-bit arithmetic of the code. -/
def bitPosWord (filter : BloomFilter) (key : Key) (round : Nat) : UInt64 :=
  ((hash key 0xbc9f1d34).toUInt64 + UInt64.ofNat round * ((hash key 0x6c8e9cf5) ||| 1).toUInt64) %
    UInt64.ofNat filter.bitCount

/-- Adding keys sets bits in place. -/
@[simp] theorem sizeBytes_add (filter : BloomFilter) (key : Key) : (filter.add key).sizeBytes = filter.sizeBytes := by
  have general : ∀ (rounds : List Nat) (bits : Bytes), (filter.setBits key rounds bits).length = bits.length := by
    intro rounds
    induction rounds with
    | nil => exact fun _ => rfl
    | cons round later ih =>
      intro bits
      have rest := ih (setBit bits (filter.bitPos key round))
      rwa [setBit, List.length_modify] at rest
  exact general _ _

theorem sizeBytes_new (expectedKeys : Nat) : (new sizing expectedKeys).sizeBytes = (sizing.bits expectedKeys + 7) / 8 := by
  simp only [new, sizeBytes, List.length_replicate]
  omega

theorem sizeBytes_new_eq_zero_iff {expectedKeys : Nat} (few : expectedKeys < 2 ^ 60) :
    (new sizing expectedKeys).sizeBytes = 0 ↔ expectedKeys = 0 := by
  rw [sizeBytes_new, ← sizing.bits_eq_zero_iff expectedKeys few]
  omega

/-- Setting bits of a byte clears none. -/
theorem byte_kept {byte bits mask : UInt8} (set : byte &&& mask ≠ 0) : (byte ||| bits) &&& mask ≠ 0 := by
  have split : (byte ||| bits) &&& mask = (byte &&& mask) ||| (bits &&& mask) :=
    UInt8.toBitVec_inj.mp BitVec.and_or_distrib_right
  intro zero
  rw [split] at zero
  exact set (UInt8.or_eq_zero_iff.mp zero).1

theorem byte_set (byte : UInt8) {bit : Nat} (inside : bit < 8) :
    (byte ||| (1 <<< UInt8.ofNat bit)) &&& (1 <<< UInt8.ofNat bit) ≠ 0 := by
  have single : (1 : UInt8) <<< UInt8.ofNat bit ≠ 0 := by
    interval_cases bit <;> decide
  rw [UInt8.or_comm]
  exact byte_kept (by rwa [UInt8.and_self])

theorem bitSet_setBit_self {bits : Bytes} {bitPos : Nat} (inside : bitPos / 8 < bits.length) :
    bitSet (setBit bits bitPos) bitPos = true := by
  have found : (setBit bits bitPos).getD (bitPos / 8) 0 = bits[bitPos / 8] ||| (1 <<< UInt8.ofNat (bitPos % 8)) := by
    simp [setBit, inside]
  rw [bitSet, found]
  exact decide_eq_true (byte_set _ (Nat.mod_lt _ (by decide)))

theorem bitSet_setBit {bits : Bytes} {bitPos : Nat} (set : bitSet bits bitPos = true) (other : Nat) :
    bitSet (setBit bits other) bitPos = true := by
  have was := of_decide_eq_true set
  by_cases inside : bitPos / 8 < bits.length
  · by_cases same : other / 8 = bitPos / 8
    · have found : (setBit bits other).getD (bitPos / 8) 0 =
          bits.getD (bitPos / 8) 0 ||| (1 <<< UInt8.ofNat (other % 8)) := by
        simp [setBit, inside, same]
      rw [bitSet, found]
      exact decide_eq_true (byte_kept was)
    · have found : (setBit bits other).getD (bitPos / 8) 0 = bits.getD (bitPos / 8) 0 := by
        simp [setBit, same]
      rw [bitSet, found]
      exact set
  · simp [inside] at was

theorem bitSet_setBits {filter : BloomFilter} {key : Key} {rounds : List Nat} {bits : Bytes} {bitPos : Nat}
    (set : bitSet bits bitPos = true) : bitSet (filter.setBits key rounds bits) bitPos = true := by
  induction rounds generalizing bits with
  | nil => exact set
  | cons round later ih => exact ih (bitSet_setBit set _)

theorem bitSet_setBits_mem {filter : BloomFilter} {key : Key} {rounds : List Nat} {bits : Bytes} {round : Nat}
    (inside : filter.bitPos key round / 8 < bits.length) (member : round ∈ rounds) :
    bitSet (filter.setBits key rounds bits) (filter.bitPos key round) = true := by
  induction rounds generalizing bits with
  | nil => simp at member
  | cons first rest ih =>
    change bitSet (filter.setBits key rest (setBit bits (filter.bitPos key first))) (filter.bitPos key round) = true
    rcases List.mem_cons.mp member with here | later
    · rw [here] at inside ⊢
      exact bitSet_setBits (bitSet_setBit_self inside)
    · refine ih ?_ later
      rwa [setBit, List.length_modify]

/-- A filter with bits, and as many as its bytes have. -/
structure Sound (filter : BloomFilter) : Prop where
  counts : filter.bitCount = filter.bitArray.length * 8
  filled : filter.bitCount ≠ 0

theorem Sound.add {filter : BloomFilter} (sound : Sound filter) (key : Key) : Sound (filter.add key) := by
  have size := sizeBytes_add filter key
  exact ⟨sound.counts.trans (congrArg (· * 8) size.symm), sound.filled⟩

/-- The filter answers maybe for a key that was added. -/
theorem Sound.mayContain_add {filter : BloomFilter} (sound : Sound filter) (key : Key) :
    (filter.add key).mayContain key = true := by
  apply List.all_eq_true.mpr
  intro round member
  have inside : filter.bitPos key round / 8 < filter.bitArray.length := by
    have below : filter.bitPos key round < filter.bitCount := Nat.mod_lt _ (Nat.pos_of_ne_zero sound.filled)
    rw [sound.counts] at below
    omega
  exact bitSet_setBits_mem inside member

theorem mayContain_add_of {filter : BloomFilter} {key : Key} (contained : filter.mayContain key = true) (other : Key) :
    (filter.add other).mayContain key = true := by
  apply List.all_eq_true.mpr
  intro round member
  exact bitSet_setBits (List.all_eq_true.mp contained round member)

def addAll (filter : BloomFilter) (keys : List Key) : BloomFilter := keys.foldl add filter

/-- No key that was added is missed. -/
theorem Sound.addAll {filter : BloomFilter} (sound : Sound filter) (keys : List Key) : Sound (filter.addAll keys) ∧
    (∀ key, filter.mayContain key = true → (filter.addAll keys).mayContain key = true) ∧
    ∀ key ∈ keys, (filter.addAll keys).mayContain key = true := by
  induction keys generalizing filter with
  | nil => exact ⟨sound, fun _ contained => contained, by simp⟩
  | cons first later ih =>
    obtain ⟨still, kept, added⟩ := ih (sound.add first)
    refine ⟨still, fun key contained => kept key (mayContain_add_of contained first), ?_⟩
    intro key member
    rcases List.mem_cons.mp member with here | rest
    · rw [here]
      exact kept first (sound.mayContain_add first)
    · exact added key rest

theorem sound_new {expectedKeys : Nat} (filled : (new sizing expectedKeys).sizeBytes ≠ 0) :
    Sound (new sizing expectedKeys) := by
  rw [sizeBytes_new] at filled
  constructor
  · simp only [new, List.length_replicate]
    omega
  · simp only [new]
    omega

theorem numHashes_new (expectedKeys : Nat) : (new sizing expectedKeys).numHashes < 2 ^ 8 := by
  simp only [new]
  omega

theorem numHashes_addAll (filter : BloomFilter) (keys : List Key) : (filter.addAll keys).numHashes = filter.numHashes := by
  induction keys generalizing filter with
  | nil => rfl
  | cons first later ih => exact ih (filter.add first)

theorem sizeBytes_addAll (filter : BloomFilter) (keys : List Key) : (filter.addAll keys).sizeBytes = filter.sizeBytes := by
  induction keys generalizing filter with
  | nil => rfl
  | cons first later ih => exact (ih (filter.add first)).trans (sizeBytes_add filter first)

/-- A filter is read back from all its bytes as it was. -/
theorem Sound.ofBytes_eq {filter : BloomFilter} (sound : Sound filter) : ofBytes filter.bitArray filter.numHashes = filter := by
  obtain ⟨bitCount, numHashes, bitArray⟩ := filter
  rw [ofBytes, ← sound.counts]

theorem Sound.rebuilt_eq {filter : BloomFilter} (sound : Sound filter) (few : filter.numHashes < 2 ^ 8) :
    rebuilt filter = filter := by
  rw [rebuilt, Nat.mod_eq_of_lt few, sound.ofBytes_eq]

theorem bitCount_addAll (filter : BloomFilter) (keys : List Key) : (filter.addAll keys).bitCount = filter.bitCount := by
  induction keys generalizing filter with
  | nil => rfl
  | cons first later ih => exact ih (filter.add first)

/-- With so few hash functions nothing wraps. -/
theorem bitPosWord_toNat {filter : BloomFilter} (fits : filter.bitCount < 2 ^ 64) (key : Key) {round : Nat}
    (few : round < 2 ^ 31) : (filter.bitPosWord key round).toNat = filter.bitPos key round := by
  have first := (hash key 0xbc9f1d34).toNat_lt
  have second := ((hash key 0x6c8e9cf5) ||| 1).toNat_lt
  have product : round * ((hash key 0x6c8e9cf5) ||| 1).toNat ≤ 2 ^ 31 * 2 ^ 32 := Nat.mul_le_mul few.le second.le
  have total : (hash key 0xbc9f1d34).toNat + round * ((hash key 0x6c8e9cf5) ||| 1).toNat < 2 ^ 64 := by omega
  rw [bitPosWord, UInt64.toNat_mod, UInt64.toNat_add, UInt64.toNat_mul, UInt64.toNat_ofNat', UInt64.toNat_ofNat',
    UInt32.toNat_toUInt64, UInt32.toNat_toUInt64, Nat.mod_eq_of_lt fits, Nat.mod_eq_of_lt (few.trans (by decide)),
    Nat.add_mod_mod, Nat.mod_eq_of_lt total, bitPos]

theorem added_keys_found {filter : BloomFilter} (positive : 0 < filter.bitCount) (whole : filter.bitCount % 8 = 0)
    (fits : filter.bitCount < 2 ^ 64) (sized : filter.bitArray.length = filter.bitCount / 8)
    (hashes : 1 ≤ filter.numHashes ∧ filter.numHashes ≤ 30) (keys : List Key) :
    (∀ key ∈ keys, (filter.addAll keys).mayContain key = true ∧ (rebuilt (filter.addAll keys)).mayContain key = true) ∧
      ∀ key, ∀ round < filter.numHashes,
        ((filter.addAll keys).bitPosWord key round).toNat = (filter.addAll keys).bitPos key round ∧
        ((rebuilt (filter.addAll keys)).bitPosWord key round).toNat = (filter.addAll keys).bitPos key round ∧
        (filter.addAll keys).bitPos key round / 8 < (filter.addAll keys).bitArray.length := by
  have sound : Sound filter := ⟨by omega, by omega⟩
  obtain ⟨still, -, added⟩ := sound.addAll keys
  have few : (filter.addAll keys).numHashes < 2 ^ 8 := by
    rw [numHashes_addAll]
    omega
  have same := still.rebuilt_eq few
  constructor
  · intro key member
    rw [same]
    exact ⟨added key member, added key member⟩
  · intro key round below
    have word : ((filter.addAll keys).bitPosWord key round).toNat = (filter.addAll keys).bitPos key round := by
      apply bitPosWord_toNat
      · rwa [bitCount_addAll]
      · omega
    have inside : (filter.addAll keys).bitPos key round < (filter.addAll keys).bitCount :=
      Nat.mod_lt _ (Nat.pos_of_ne_zero still.filled)
    rw [still.counts] at inside
    rw [same]
    exact ⟨word, word, by omega⟩

theorem added_keys_found_two_bytes :
    (rebuilt ((⟨16, 3, [0, 0]⟩ : BloomFilter).addAll [[1], [2]])).mayContain [2] = true :=
  ((added_keys_found (by decide) (by decide) (by decide) (by decide) (by decide) [[1], [2]]).1 [2] (by decide)).2

end BloomFilter

end Enigma
