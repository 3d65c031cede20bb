import Mathlib.Data.List.Sort

/-! The contract of a priority queue: a pop hands out some member that gives way to
no other. Which one, among several, is up to the queue. -/

namespace Enigma

structure PriorityQueue {α : Type} (below : α → α → Bool) where
  Heap : Type
  members : Heap → List α
  empty : Heap
  push : α → Heap → Heap
  pop : Heap → Option (α × Heap)
  members_empty : members empty = []
  members_push : ∀ item heap, (members (push item heap)).Perm (item :: members heap)
  pop_none : ∀ {heap}, pop heap = none → members heap = []
  pop_perm : ∀ {heap top rest}, pop heap = some (top, rest) → (members heap).Perm (top :: members rest)
  pop_highest : ∀ {heap top rest}, pop heap = some (top, rest) → ∀ other ∈ members rest, below top other = false

namespace PriorityQueue

variable {α : Type} {below : α → α → Bool}

/-- The queue that keeps its members in order. -/
def sorted (total : ∀ left right, below left right = false ∨ below right left = false)
    (trans : ∀ {first second third}, below first second = false → below second third = false → below first third = false) :
    PriorityQueue below :=
  let before := fun left right => below left right = false
  haveI : Std.Total before := ⟨total⟩
  haveI : IsTrans α before := ⟨fun _ _ _ => trans⟩
  { Heap := { members : List α // members.Pairwise before }
    members := fun heap => heap.val
    empty := ⟨[], .nil⟩
    push := fun item heap => ⟨heap.val.orderedInsert before item, heap.property.orderedInsert item heap.val⟩
    pop := fun heap =>
      match heap with
      | ⟨[], _⟩ => none
      | ⟨top :: rest, order⟩ => some (top, ⟨rest, (List.pairwise_cons.mp order).2⟩)
    members_empty := rfl
    members_push := fun item heap => List.perm_orderedInsert before item heap.val
    pop_none := by
      rintro ⟨_ | _, order⟩ popped
      · rfl
      · cases popped
    pop_perm := by
      rintro ⟨_ | _, order⟩ top rest popped
      · cases popped
      · cases popped
        exact .refl _
    pop_highest := by
      rintro ⟨_ | _, order⟩ top rest popped
      · cases popped
      · cases popped
        exact (List.pairwise_cons.mp order).1 }

end PriorityQueue

end Enigma
