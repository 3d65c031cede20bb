import Mathlib.Data.Nat.ModEq

/-! A queue in a ring of slots. It is filled at the tail and emptied at the head; both
move on around the ring. -/

namespace Enigma

structure RingBuffer (α : Type) where
  slots : List α
  head : Nat
  tail : Nat
  size : Nat

namespace RingBuffer

variable {α : Type}

def capacity (ring : RingBuffer α) : Nat := ring.slots.length

def new [Inhabited α] (capacity : Nat) : RingBuffer α := ⟨List.replicate capacity default, 0, 0, 0⟩

def push (ring : RingBuffer α) (value : α) : RingBuffer α :=
  { ring with
    slots := ring.slots.set ring.tail value
    tail := (ring.tail + 1) % ring.capacity
    size := ring.size + 1 }

def front [Inhabited α] (ring : RingBuffer α) : α := ring.slots.getD ring.head default

/-- The slot itself is left as it is. -/
def pop (ring : RingBuffer α) : RingBuffer α :=
  { ring with
    head := (ring.head + 1) % ring.capacity
    size := ring.size - 1 }

/-- What is in the queue, the oldest first. -/
def contents [Inhabited α] (ring : RingBuffer α) : List α :=
  (List.range ring.size).map fun index => ring.slots.getD ((ring.head + index) % ring.capacity) default

structure WellFormed (ring : RingBuffer α) : Prop where
  positive : 0 < ring.capacity
  head : ring.head < ring.capacity
  tail : ring.tail = (ring.head + ring.size) % ring.capacity
  size : ring.size ≤ ring.capacity

variable {ring : RingBuffer α}

@[simp] theorem push_capacity (ring : RingBuffer α) (value : α) : (ring.push value).capacity = ring.capacity :=
  List.length_set

@[simp] theorem pop_capacity (ring : RingBuffer α) : ring.pop.capacity = ring.capacity := rfl

theorem WellFormed.push (formed : ring.WellFormed) (room : ring.size < ring.capacity) (value : α) :
    (ring.push value).WellFormed where
  positive := by
    rw [push_capacity]
    exact formed.positive
  head := by
    rw [push_capacity]
    exact formed.head
  tail := by
    rw [push_capacity]
    change (ring.tail + 1) % ring.capacity = (ring.head + (ring.size + 1)) % ring.capacity
    rw [formed.tail, Nat.mod_add_mod, Nat.add_assoc]
  size := by
    rw [push_capacity]
    exact room

theorem WellFormed.pop (formed : ring.WellFormed) (filled : 0 < ring.size) : ring.pop.WellFormed where
  positive := formed.positive
  head := Nat.mod_lt _ formed.positive
  tail := by
    change ring.tail = ((ring.head + 1) % ring.capacity + (ring.size - 1)) % ring.capacity
    rw [formed.tail, Nat.mod_add_mod]
    congr 1
    omega
  size := by
    have small := formed.size
    change ring.size - 1 ≤ ring.capacity
    omega

/-- The slot at the tail holds nothing that is still in the queue. -/
theorem WellFormed.tail_free (formed : ring.WellFormed) (room : ring.size < ring.capacity) {index : Nat}
    (inside : index < ring.size) : (ring.head + index) % ring.capacity ≠ ring.tail := by
  rw [formed.tail]
  intro same
  have congruent : ring.head + index ≡ ring.head + ring.size [MOD ring.capacity] := same
  have offsets : index ≡ ring.size [MOD ring.capacity] := Nat.ModEq.add_left_cancel' ring.head congruent
  have equal := offsets.eq_of_lt_of_lt (inside.trans room) room
  omega

variable [Inhabited α]

theorem new_wellFormed {capacity : Nat} (positive : 0 < capacity) : (new capacity : RingBuffer α).WellFormed := by
  have length : (new capacity : RingBuffer α).capacity = capacity := List.length_replicate
  refine ⟨length.symm ▸ positive, length.symm ▸ positive, ?_, Nat.zero_le _⟩
  rw [length]
  exact (Nat.zero_mod capacity).symm

@[simp] theorem contents_length (ring : RingBuffer α) : ring.contents.length = ring.size := by
  rw [contents, List.length_map, List.length_range]

theorem contents_eq_nil_iff : ring.contents = [] ↔ ring.size = 0 := by
  rw [← List.length_eq_zero_iff, contents_length]

theorem WellFormed.contents_push (formed : ring.WellFormed) (room : ring.size < ring.capacity) (value : α) :
    (ring.push value).contents = ring.contents ++ [value] := by
  have last : ring.tail < ring.slots.length := by
    rw [formed.tail]
    exact Nat.mod_lt _ formed.positive
  unfold contents
  rw [push_capacity]
  change (List.range (ring.size + 1)).map (fun index =>
    (ring.slots.set ring.tail value).getD ((ring.head + index) % ring.capacity) default) = _
  rw [List.range_succ, List.map_append, List.map_singleton]
  congr 1
  · apply List.map_congr_left
    intro index member
    have free := formed.tail_free room (List.mem_range.mp member)
    rw [List.getD_eq_getElem?_getD, List.getD_eq_getElem?_getD, List.getElem?_set_ne (Ne.symm free)]
  · rw [← formed.tail, List.getD_eq_getElem?_getD, List.getElem?_set_self last]
    rfl

theorem WellFormed.contents_pop (formed : ring.WellFormed) (filled : 0 < ring.size) :
    ring.contents = ring.front :: ring.pop.contents := by
  obtain ⟨size, more⟩ := Nat.exists_eq_add_one_of_ne_zero filled.ne'
  unfold contents
  rw [pop_capacity, more, List.range_succ_eq_map, List.map_cons, List.map_map]
  change _ = _ :: (List.range (ring.size - 1)).map _
  rw [more, Nat.add_sub_cancel]
  congr 1
  · rw [Nat.add_zero, Nat.mod_eq_of_lt formed.head]
    rfl
  · apply List.map_congr_left
    intro index member
    change ring.slots.getD ((ring.head + (index + 1)) % ring.capacity) default =
      ring.slots.getD (((ring.head + 1) % ring.capacity + index) % ring.capacity) default
    rw [Nat.mod_add_mod, Nat.add_assoc, Nat.add_comm 1 index]

end RingBuffer

end Enigma
