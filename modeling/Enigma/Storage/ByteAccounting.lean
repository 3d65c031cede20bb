import Enigma.Storage.Memtable
import Mathlib.Algebra.Order.BigOperators.Group.List
import Mathlib.Data.List.Dedup

/-! The memtable with the counter of the code, which is a 64-bit word: the code adds
to it and subtracts from it. Whatever is written, the counter follows the exact
estimate. -/

namespace Enigma

structure CountedMemtable where
  bytes : UInt64
  maxMemtableSize : UInt64
  entries : SortedMap Key InternalValue
  deriving DecidableEq

namespace CountedMemtable

def new (flushAfter : UInt64) : CountedMemtable := ⟨0, flushAfter, .empty⟩

/-- A new key counts its own bytes. -/
def toAdd (memtable : CountedMemtable) (key : Key) (value : InternalValue) : UInt64 :=
  match memtable.entries.find? key with
  | some _ => UInt64.ofNat value.data.length
  | none => UInt64.ofNat value.data.length + UInt64.ofNat key.length

def toRemove (memtable : CountedMemtable) (key : Key) : UInt64 :=
  match memtable.entries.find? key with
  | some held => UInt64.ofNat held.data.length
  | none => 0

def store (memtable : CountedMemtable) (key : Key) (value : InternalValue) : CountedMemtable :=
  { memtable with
    entries := memtable.entries.insert key value
    bytes := memtable.bytes + memtable.toAdd key value - memtable.toRemove key }

def put (memtable : CountedMemtable) (key : Key) (value : Bytes) (sequence : Nat) : CountedMemtable :=
  memtable.store key ⟨value, false, sequence⟩

def remove (memtable : CountedMemtable) (key : Key) (sequence : Nat) : CountedMemtable :=
  memtable.store key ⟨[], true, sequence⟩

def get (memtable : CountedMemtable) (key : Key) : Option InternalValue := memtable.entries.find? key

def approximateSize (memtable : CountedMemtable) : UInt64 := memtable.bytes

def shouldFlush (memtable : CountedMemtable) : Bool := memtable.maxMemtableSize ≤ memtable.bytes

def count (memtable : CountedMemtable) : Nat := memtable.entries.size

inductive Write where
  | put (key : Key) (value : Bytes) (sequence : Nat)
  | remove (key : Key) (sequence : Nat)
  deriving DecidableEq

def Write.key : Write → Key
  | .put key _ _ => key
  | .remove key _ => key

def Write.value : Write → InternalValue
  | .put _ value sequence => ⟨value, false, sequence⟩
  | .remove _ sequence => ⟨[], true, sequence⟩

/-- The bytes that a call hands over. -/
def Write.size (write : Write) : Nat := write.key.length + write.value.data.length

def apply (memtable : CountedMemtable) : Write → CountedMemtable
  | .put key value sequence => memtable.put key value sequence
  | .remove key sequence => memtable.remove key sequence

def run (memtable : CountedMemtable) (writes : List Write) : CountedMemtable := writes.foldl apply memtable

def storedBytes (memtable : CountedMemtable) : Nat := (memtable.entries.bindings.map Memtable.weight).sum

/-- Neither the addition nor the subtraction of a call wraps. -/
def Unwrapped (memtable : CountedMemtable) (write : Write) : Prop :=
  memtable.bytes.toNat + (memtable.toAdd write.key write.value).toNat < 2 ^ 64 ∧
    memtable.toRemove write.key ≤ memtable.bytes + memtable.toAdd write.key write.value

theorem apply_eq_store (memtable : CountedMemtable) (write : Write) :
    memtable.apply write = memtable.store write.key write.value := by
  cases write <;> rfl

/-- The counter is the exact estimate, as far as a word can hold it. -/
structure Follows (memtable : CountedMemtable) (ideal : Memtable) : Prop where
  entries : memtable.entries = ideal.entries
  bytes : memtable.bytes = UInt64.ofNat ideal.bytes
  accounted : ideal.Accounted

theorem Follows.storedBytes {memtable : CountedMemtable} {ideal : Memtable} (follows : Follows memtable ideal) :
    memtable.storedBytes = ideal.bytes := by
  rw [CountedMemtable.storedBytes, follows.entries, follows.accounted]

/-- What is held for a key is part of the estimate. -/
theorem Follows.covers {memtable : CountedMemtable} {ideal : Memtable} (follows : Follows memtable ideal) {key : Key}
    {held : InternalValue} (found : ideal.entries.find? key = some held) : held.data.length ≤ ideal.bytes := by
  have covered : Memtable.weight (key, held) ≤ ideal.bytes := by
    rw [follows.accounted]
    exact List.le_sum_of_mem (List.mem_map_of_mem (SortedMap.find?_eq_some_iff.mp found))
  simp only [Memtable.weight] at covered
  omega

theorem Follows.store {memtable : CountedMemtable} {ideal : Memtable} (follows : Follows memtable ideal) (key : Key)
    (value : InternalValue) : Follows (memtable.store key value) (ideal.store key value) where
  entries := by rw [CountedMemtable.store, Memtable.store_entries, follows.entries]
  bytes := by
    simp only [CountedMemtable.store, toAdd, toRemove, Memtable.store, follows.entries, follows.bytes]
    cases found : ideal.entries.find? key with
    | none => rw [UInt64.sub_zero, UInt64.ofNat_add, UInt64.ofNat_add]
    | some held =>
      rw [UInt64.ofNat_sub ((follows.covers found).trans (Nat.le_add_right ..)), UInt64.ofNat_add]
  accounted := Memtable.store_accounted follows.accounted key value

theorem run_follows (flushAfter : UInt64) (writes : List Write) :
    ∃ ideal, Follows ((new flushAfter).run writes) ideal ∧
      ideal.entries = SortedMap.empty.insertMany (writes.map fun write => (write.key, write.value)) ∧
      ideal.bytes ≤ (writes.map Write.size).sum := by
  induction writes using List.reverseRecOn with
  | nil => exact ⟨Memtable.new flushAfter.toNat, ⟨rfl, rfl, Memtable.new_accounted _⟩, rfl, Nat.le_refl _⟩
  | append_singleton earlier write ih =>
    obtain ⟨ideal, follows, entries, bounded⟩ := ih
    refine ⟨ideal.store write.key write.value, ?_, ?_, ?_⟩
    · have stored := follows.store write.key write.value
      rw [← apply_eq_store] at stored
      simpa only [run, List.foldl_append, List.foldl_cons, List.foldl_nil] using stored
    · rw [Memtable.store_entries, entries, SortedMap.insertMany, SortedMap.insertMany, List.map_append,
        List.foldl_append]
      rfl
    · rw [List.map_append, List.sum_append]
      exact (ideal.store_bytes_le write.key write.value).trans (Nat.add_le_add bounded (Nat.le_refl _))

theorem Follows.unwrapped {memtable : CountedMemtable} {ideal : Memtable} (follows : Follows memtable ideal)
    {write : Write} (fits : ideal.bytes + write.size < 2 ^ 64) : memtable.Unwrapped write := by
  have word : ∀ number < 2 ^ 64, (UInt64.ofNat number).toNat = number := fun _ => UInt64.toNat_ofNat_of_lt'
  have counter : memtable.bytes.toNat = ideal.bytes := by
    rw [follows.bytes, word _ (by omega)]
  have size : write.size = write.key.length + write.value.data.length := rfl
  have value := word write.value.data.length (by omega)
  simp only [Unwrapped, toAdd, toRemove, follows.entries, UInt64.le_iff_toNat_le, UInt64.toNat_add]
  cases found : ideal.entries.find? write.key with
  | none =>
    have key := word write.key.length (by omega)
    simp only [UInt64.toNat_add, value, key, counter, UInt64.toNat_zero]
    omega
  | some held =>
    have covers := follows.covers found
    have former := word held.data.length (by omega)
    simp only [value, former, counter]
    omega

/-- The keys that were written, each once. -/
theorem run_count (flushAfter : UInt64) (writes : List Write) :
    ((new flushAfter).run writes).count = (writes.map Write.key).dedup.length := by
  obtain ⟨ideal, follows, entries, _⟩ := run_follows flushAfter writes
  have distinct : ideal.entries.keys.Nodup := (List.pairwise_map.mpr ideal.entries.ascending).imp ne_of_lt
  have touched : ∀ key, key ∈ ideal.entries.keys ↔ key ∈ (writes.map Write.key).dedup := by
    intro key
    rw [← not_iff_not, ← SortedMap.find?_eq_none_iff, entries, SortedMap.insertMany_find?, SortedMap.find?_empty,
      Option.or_none, Assoc.last?_eq_none_iff, List.mem_dedup, List.mem_map]
    simp
  have same := (List.perm_ext_iff_of_nodup distinct (List.nodup_dedup _)).mpr touched
  rw [count, follows.entries, SortedMap.size, ← same.length_eq, SortedMap.keys, List.length_map]

/-- While the bytes handed over are below `2 ^ 64` together, so are the stored ones: the
counter is exact after every call and no update wraps. -/
theorem byte_accounting_exact (flushAfter : UInt64) (writes : List Write) :
    (((new flushAfter).run writes).storedBytes < 2 ^ 64 →
        ((new flushAfter).run writes).bytes.toNat = ((new flushAfter).run writes).storedBytes) ∧
      (∀ write, ((new flushAfter).run writes).storedBytes + write.size < 2 ^ 64 →
        ((new flushAfter).run writes).Unwrapped write) ∧
      ((new flushAfter).run writes).storedBytes ≤ (writes.map Write.size).sum ∧
      ((new flushAfter).run writes).count = (writes.map Write.key).dedup.length ∧
      ((new flushAfter).run writes).entries.keys.Pairwise (· < ·) ∧
      ∀ key, ((new flushAfter).run writes).get key =
        Assoc.last? (writes.map fun write => (write.key, write.value)) key := by
  obtain ⟨ideal, follows, entries, bounded⟩ := run_follows flushAfter writes
  refine ⟨?_, ?_, follows.storedBytes.trans_le bounded, run_count flushAfter writes,
    List.pairwise_map.mpr (SortedMap.ascending _), ?_⟩
  · intro fits
    rw [follows.storedBytes] at fits ⊢
    rw [follows.bytes, UInt64.toNat_ofNat_of_lt' fits]
  · intro write fits
    rw [follows.storedBytes] at fits
    exact follows.unwrapped fits
  · intro key
    rw [get, follows.entries, entries, SortedMap.insertMany_find?, SortedMap.find?_empty, Option.or_none]

end CountedMemtable

end Enigma
