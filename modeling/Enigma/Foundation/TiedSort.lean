import Mathlib.Data.List.Sort

/-! Sorting leaves elements with equal keys in any order. A fold that takes two such
elements in either order to the same place does not see which one it was. -/

namespace Enigma

namespace TiedSort

variable {α σ κ : Type}

/-- One of the lists that sorting may come to. -/
structure SortsTo (le : α → α → Prop) (list sorted : List α) : Prop where
  perm : sorted.Perm list
  ordered : sorted.Pairwise le

theorem sortsTo_insertionSort (le : α → α → Prop) [DecidableRel le] [Std.Total le] [IsTrans α le] (list : List α) :
    SortsTo le list (list.insertionSort le) :=
  ⟨List.perm_insertionSort le list, List.pairwise_insertionSort le list⟩

/-- Without ties there is only one. -/
theorem SortsTo.unique {le : α → α → Prop} {list other sorted otherSorted : List α} (sorts : SortsTo le list sorted)
    (otherSorts : SortsTo le other otherSorted) (same : list.Perm other)
    (untied : ∀ left ∈ list, ∀ right ∈ list, le left right → le right left → left = right) :
    sorted = otherSorted := by
  have perm := (sorts.perm.trans same).trans otherSorts.perm.symm
  refine perm.eq_of_pairwise ?_ sorts.ordered otherSorts.ordered
  intro left right leftMember rightMember
  exact untied left (sorts.perm.mem_iff.mp leftMember) right (same.mem_iff.mpr (otherSorts.perm.mem_iff.mp rightMember))

/-- A step that does not see the order of ties, up to a relation between states. It
may count on what the elements so far, none above a bound, have led to. -/
structure TieBlind [LinearOrder κ] (key : α → κ) (step : σ → α → σ) (same : σ → σ → Prop) (ready : σ → κ → Prop) :
    Prop where
  refl : ∀ state, same state state
  trans : ∀ {first second third}, same first second → same second third → same first third
  congr : ∀ {left right} element, same left right → same (step left element) (step right element)
  advance : ∀ {state bound element}, ready state bound → bound ≤ key element → ready (step state element) (key element)
  swap : ∀ {state bound left right}, ready state bound → bound ≤ key left → key left = key right →
    same (step (step state left) right) (step (step state right) left)

namespace TieBlind

variable [LinearOrder κ] {key : α → κ} {step : σ → α → σ} {same : σ → σ → Prop} {ready : σ → κ → Prop}

theorem foldl_congr (blind : TieBlind key step same ready) (elements : List α) {left right : σ}
    (alike : same left right) : same (elements.foldl step left) (elements.foldl step right) := by
  induction elements generalizing left right with
  | nil => exact alike
  | cons element later ih => exact ih (blind.congr element alike)

/-- Any two sorts of the same elements lead to the same place. -/
theorem foldl_sorted (blind : TieBlind key step same ready) {left right : List α} {state : σ} {bound : κ}
    (start : ready state bound) (above : ∀ element ∈ left, bound ≤ key element)
    (leftSorted : left.Pairwise fun first second => key first ≤ key second)
    (rightSorted : right.Pairwise fun first second => key first ≤ key second) (perm : left.Perm right) :
    same (left.foldl step state) (right.foldl step state) := by
  induction counted : left.length generalizing left right state bound with
  | zero =>
    have none := List.eq_nil_of_length_eq_zero counted
    subst none
    cases perm.nil_eq
    exact blind.refl state
  | succ count ih =>
    obtain ⟨first, rest, rfl⟩ := List.exists_cons_of_length_eq_add_one counted
    obtain ⟨lead, others, rfl⟩ : ∃ lead others, right = lead :: others := by
      cases right with
      | nil => cases perm.eq_nil
      | cons lead others => exact ⟨lead, others, rfl⟩
    obtain ⟨firstLeast, restSorted⟩ := List.pairwise_cons.mp leftSorted
    obtain ⟨leadLeast, othersSorted⟩ := List.pairwise_cons.mp rightSorted
    have firstAbove := above first (List.mem_cons_self ..)
    have fewer : rest.length = count := by simpa using counted
    rw [List.foldl_cons, List.foldl_cons]
    by_cases equal : lead = first
    · subst equal
      exact ih (blind.advance start firstAbove) firstLeast restSorted othersSorted perm.cons_inv fewer
    · have leadInside : lead ∈ rest := List.mem_of_ne_of_mem equal (perm.mem_iff.mpr (List.mem_cons_self ..))
      have firstInside : first ∈ others :=
        List.mem_of_ne_of_mem (Ne.symm equal) (perm.mem_iff.mp (List.mem_cons_self ..))
      have tied : key first = key lead := le_antisymm (firstLeast lead leadInside) (leadLeast first firstInside)
      obtain ⟨front, back, split⟩ := List.append_of_mem leadInside
      have restPerm : rest.Perm (lead :: (front ++ back)) := split ▸ List.perm_middle
      have othersPerm : others.Perm (first :: (front ++ back)) :=
        (perm.symm.trans ((restPerm.cons first).trans (List.Perm.swap ..))).cons_inv
      have remainingSorted : (front ++ back).Pairwise fun first second => key first ≤ key second :=
        restSorted.sublist (split ▸ List.Sublist.append_left (List.sublist_cons_self ..) front)
      have remainingAbove : ∀ element ∈ front ++ back, key first ≤ key element := fun element member =>
        firstLeast element (restPerm.mem_iff.mpr (List.mem_cons_of_mem _ member))
      have leadSorted := List.pairwise_cons.mpr ⟨tied ▸ remainingAbove, remainingSorted⟩
      have leadFirst := ih (blind.advance start firstAbove) firstLeast restSorted leadSorted restPerm fewer
      have swapped := blind.foldl_congr (front ++ back) (blind.swap start firstAbove tied)
      have firstNext := ih (blind.advance start (tied ▸ firstAbove))
        (fun element member => leadLeast element (othersPerm.mem_iff.mpr member))
        (List.pairwise_cons.mpr ⟨remainingAbove, remainingSorted⟩) othersSorted othersPerm.symm
        (restPerm.length_eq.symm.trans fewer)
      exact blind.trans leadFirst (blind.trans swapped firstNext)

end TieBlind

end TiedSort

end Enigma
