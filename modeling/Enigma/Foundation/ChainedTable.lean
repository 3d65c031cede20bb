import Mathlib.Data.List.Perm.Basic

/-! Tables of chains: every element stands in the chain of its slot. Of the contents
only the elements matter, not their order in a chain. -/

namespace Enigma

variable {ν : Type} {slot : ν → Nat} {buckets : List (List ν)} {nodes : List ν}

structure Chained (slot : ν → Nat) (buckets : List (List ν)) (nodes : List ν) : Prop where
  placed : ∀ index chain, buckets[index]? = some chain → ∀ node ∈ chain, slot node = index
  contents : buckets.flatten.Perm nodes

namespace Chained

theorem empty (size : Nat) : Chained slot (List.replicate size []) [] := by
  refine ⟨?_, by simp⟩
  intro index chain found node member
  have blank : chain = [] := List.eq_of_mem_replicate (List.mem_of_getElem? found)
  exact absurd member (blank ▸ List.not_mem_nil)

theorem perm {others : List ν} (chained : Chained slot buckets nodes) (same : nodes.Perm others) :
    Chained slot buckets others :=
  ⟨chained.placed, chained.contents.trans same⟩

theorem congr {other : ν → Nat} (chained : Chained slot buckets nodes)
    (same : ∀ node ∈ nodes, other node = slot node) : Chained other buckets nodes := by
  refine ⟨?_, chained.contents⟩
  intro index chain found node member
  have stored : node ∈ nodes :=
    chained.contents.mem_iff.mp (List.mem_flatten_of_mem (List.mem_of_getElem? found) member)
  exact (same node stored).trans (chained.placed index chain found node member)

/-- A chain holds all the elements of its slot, and may be exchanged for another one. -/
theorem bucket (chained : Chained slot buckets nodes) {index : Nat} {chain : List ν}
    (found : buckets[index]? = some chain) :
    ∃ rest, nodes.Perm (chain ++ rest) ∧ (∀ node ∈ rest, slot node ≠ index) ∧
      ∀ other, (∀ node ∈ other, slot node = index) → Chained slot (buckets.set index other) (other ++ rest) := by
  obtain ⟨inside, rfl⟩ := List.getElem?_eq_some_iff.mp found
  have rearranged : ∀ middle : List ν,
      (buckets.take index ++ middle :: buckets.drop (index + 1)).flatten.Perm
        (middle ++ ((buckets.take index).flatten ++ (buckets.drop (index + 1)).flatten)) := by
    intro middle
    rw [List.flatten_append, List.flatten_cons]
    exact List.perm_append_comm_assoc ..
  refine ⟨(buckets.take index).flatten ++ (buckets.drop (index + 1)).flatten, ?_, ?_, ?_⟩
  · have split : buckets = buckets.take index ++ buckets[index] :: buckets.drop (index + 1) := by
      rw [List.getElem_cons_drop, List.take_append_drop]
    exact chained.contents.symm.trans ((List.Perm.of_eq (congrArg List.flatten split)).trans (rearranged _))
  · intro node member same
    rcases List.mem_append.mp member with ahead | behind
    · obtain ⟨chain, listed, present⟩ := List.mem_flatten.mp ahead
      obtain ⟨position, before⟩ := List.mem_iff_getElem?.mp listed
      rw [List.getElem?_take] at before
      split at before
      · have elsewhere := chained.placed position chain before node present
        omega
      · cases before
    · obtain ⟨chain, listed, present⟩ := List.mem_flatten.mp behind
      obtain ⟨position, after⟩ := List.mem_iff_getElem?.mp listed
      rw [List.getElem?_drop] at after
      have elsewhere := chained.placed _ chain after node present
      omega
  · intro other placed
    refine ⟨?_, ?_⟩
    · intro position chain listed node member
      rw [List.getElem?_set] at listed
      split at listed
      · rename_i same
        subst same
        cases listed
        exact placed node member
      · exact chained.placed position chain listed node member
    · rw [List.set_eq_take_append_cons_drop, if_pos inside]
      exact rearranged other

theorem push (chained : Chained slot buckets nodes) {node : ν} (inside : slot node < buckets.length) :
    Chained slot (buckets.modify (slot node) (node :: ·)) (node :: nodes) := by
  obtain ⟨rest, contents, -, exchange⟩ := chained.bucket (List.getElem?_eq_getElem inside)
  have placed : ∀ other ∈ node :: buckets[slot node], slot other = slot node := by
    intro other member
    rcases List.mem_cons.mp member with rfl | stored
    · rfl
    · exact chained.placed _ _ (List.getElem?_eq_getElem inside) other stored
  have changed : buckets.modify (slot node) (node :: ·) = buckets.set (slot node) (node :: buckets[slot node]) := by
    rw [List.modify_eq_take_cons_drop inside, List.set_eq_take_append_cons_drop, if_pos inside]
  rw [changed]
  exact (exchange _ placed).perm (contents.symm.cons node)

end Chained

end Enigma
