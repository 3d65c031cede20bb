import Enigma.Storage.Types

/-! The in-memory write buffer. `bytes` is the running estimate that decides
when the engine flushes. -/

namespace Enigma

structure Memtable where
  bytes : Nat
  maxMemtableSize : Nat
  entries : SortedMap Key InternalValue
  deriving DecidableEq

namespace Memtable

def new (flushAfter : Nat) : Memtable := ⟨0, flushAfter, .empty⟩

/-- Both writers store a version and correct the estimate: a new key counts its
own bytes, an old one gives back the bytes of the version it replaces. -/
def store (memtable : Memtable) (key : Key) (value : InternalValue) : Memtable :=
  match memtable.entries.find? key with
  | some held =>
    { memtable with
      entries := memtable.entries.insert key value
      bytes := memtable.bytes + value.data.length - held.data.length }
  | none =>
    { memtable with
      entries := memtable.entries.insert key value
      bytes := memtable.bytes + (value.data.length + key.length) }

def put (memtable : Memtable) (key : Key) (value : Bytes) (sequence : Nat) : Memtable :=
  memtable.store key ⟨value, false, sequence⟩

def remove (memtable : Memtable) (key : Key) (sequence : Nat) : Memtable :=
  memtable.store key ⟨[], true, sequence⟩

def get (memtable : Memtable) (key : Key) : Option InternalValue := memtable.entries.find? key

def approximateSize (memtable : Memtable) : Nat := memtable.bytes

def shouldFlush (memtable : Memtable) : Bool := memtable.maxMemtableSize ≤ memtable.bytes

def count (memtable : Memtable) : Nat := memtable.entries.size

@[simp] theorem store_entries (memtable : Memtable) (key : Key) (value : InternalValue) :
    (memtable.store key value).entries = memtable.entries.insert key value := by
  unfold store
  split <;> rfl

theorem store_bytes_le (memtable : Memtable) (key : Key) (value : InternalValue) :
    (memtable.store key value).bytes ≤ memtable.bytes + (key.length + value.data.length) := by
  unfold store
  split
  · exact (Nat.sub_le _ _).trans (Nat.add_le_add_left (Nat.le_add_left _ _) _)
  · rw [Nat.add_comm value.data.length]

def weight (entry : Entry) : Nat := entry.1.length + entry.2.data.length

/-- The estimate is the exact number of key and value bytes stored. -/
def Accounted (memtable : Memtable) : Prop :=
  memtable.bytes = (memtable.entries.bindings.map weight).sum

theorem new_accounted (flushAfter : Nat) : Accounted (new flushAfter) := rfl

theorem store_accounted {memtable : Memtable} (accounted : Accounted memtable) (key : Key) (value : InternalValue) :
    Accounted (memtable.store key value) := by
  have balance := Assoc.sum_insert memtable.entries.ascending key value weight
  simp only [Accounted] at accounted ⊢
  simp only [store_entries]
  cases found : memtable.entries.find? key with
  | none =>
    simp only [SortedMap.find?] at found
    simp only [found, Option.elim_none, weight] at balance
    simp only [store, SortedMap.find?, found, SortedMap.insert]
    omega
  | some held =>
    simp only [SortedMap.find?] at found
    simp only [found, Option.elim_some, weight] at balance
    simp only [store, SortedMap.find?, found, SortedMap.insert]
    omega

/-- With keys of at least one byte, an empty estimate means an empty memtable. -/
theorem approximateSize_pos_iff {memtable : Memtable} (accounted : Accounted memtable)
    (keyed : ∀ key ∈ memtable.entries.keys, key ≠ []) :
    0 < memtable.approximateSize ↔ 0 < memtable.count := by
  simp only [approximateSize, count, SortedMap.size, Accounted] at accounted ⊢
  rw [accounted]
  simp only [SortedMap.keys] at keyed
  cases shape : memtable.entries.bindings with
  | nil => simp
  | cons entry rest =>
    have nonempty : entry.1 ≠ [] := keyed entry.1 (by simp [shape])
    have positive := List.length_pos_iff.mpr nonempty
    simp only [List.map_cons, List.sum_cons, List.length_cons, weight]
    omega

/-- The estimate is zero when nothing is stored but a version without data of the
zero-length key. -/
theorem approximateSize_eq_zero_iff {memtable : Memtable} (accounted : Accounted memtable) :
    memtable.approximateSize = 0 ↔ ∀ key value, memtable.get key = some value → key = [] ∧ value.data = [] := by
  rw [approximateSize, accounted, List.sum_eq_zero_iff_forall_eq_nat, List.forall_mem_map]
  constructor
  · intro weightless key value found
    have none := weightless (key, value) (SortedMap.find?_eq_some_iff.mp found)
    simp only [weight] at none
    exact ⟨List.length_eq_zero_iff.mp (by omega), List.length_eq_zero_iff.mp (by omega)⟩
  · intro bare entry member
    obtain ⟨key, data⟩ := bare entry.1 entry.2 (SortedMap.find?_eq_some_iff.mpr member)
    simp [weight, key, data]

end Memtable

end Enigma
