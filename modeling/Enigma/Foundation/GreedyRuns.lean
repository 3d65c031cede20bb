import Mathlib.Data.List.Basic

/-! A list cut into runs from the left. A run goes on as long as the next item may
join the items before it. -/

namespace Enigma

namespace GreedyRuns

variable {α : Type} {joins : List α → α → Prop}

/-- Each item after the first may join those before it. -/
structure Run (joins : List α → α → Prop) (items : List α) : Prop where
  filled : items ≠ []
  joined : ∀ front item back, items = front ++ item :: back → front ≠ [] → joins front item

theorem run_single (item : α) : Run joins [item] where
  filled := List.cons_ne_nil _ _
  joined := by
    intro front other back same some
    have lengths := congrArg List.length same
    have positive := List.length_pos_iff.mpr some
    simp only [List.length_append, List.length_cons, List.length_nil] at lengths
    omega

theorem Run.snoc {items : List α} {item : α} (run : Run joins items) (fits : joins items item) :
    Run joins (items ++ [item]) where
  filled := by simp
  joined := by
    intro front other back same some
    rcases List.eq_nil_or_concat back with last | ⟨middle, final, inner⟩
    · subst last
      obtain ⟨whole, here⟩ := List.append_inj' same rfl
      cases here
      exact whole ▸ fits
    · rw [inner, List.concat_eq_append, ← List.cons_append, ← List.append_assoc] at same
      exact run.joined front other middle (List.append_inj_left' same rfl) some

/-- The runs of a list, each as long as it can be. -/
inductive Runs (joins : List α → α → Prop) : List α → List (List α) → Prop
  | nil : Runs joins [] []
  | cons {run rest : List α} {runs : List (List α)} (first : Run joins run)
      (ends : ∀ item ∈ rest.head?, ¬ joins run item) (later : Runs joins rest runs) :
      Runs joins (run ++ rest) (run :: runs)

/-- Of two runs at the start of a list neither goes on where the other ends. -/
theorem run_eq {run other rest otherRest : List α} (same : run ++ rest = other ++ otherRest) (first : Run joins run)
    (ends : ∀ item ∈ rest.head?, ¬ joins run item) (longer : Run joins other) (inside : run.length ≤ other.length) :
    run = other := by
  obtain ⟨more, whole⟩ := List.prefix_of_prefix_length_le (List.prefix_append run rest)
    (same ▸ List.prefix_append other otherRest) inside
  cases more with
  | nil => simpa using whole
  | cons item back =>
    rw [← whole, List.append_assoc, List.append_cancel_left_eq] at same
    refine absurd (longer.joined run item back whole.symm first.filled) (ends item ?_)
    rw [same]
    rfl

/-- A list has one cut into runs only. -/
theorem Runs.unique {items : List α} {left right : List (List α)} (cut : Runs joins items left)
    (other : Runs joins items right) : left = right := by
  induction cut generalizing right with
  | nil =>
    generalize none : ([] : List α) = items at other
    cases other with
    | nil => rfl
    | cons first _ _ => exact absurd (List.append_eq_nil_iff.mp none.symm).1 first.filled
  | @cons run rest runs first ends later ih =>
    generalize same : run ++ rest = items at other
    cases other with
    | nil => exact absurd (List.append_eq_nil_iff.mp same).1 first.filled
    | @cons otherRun otherRest otherRuns otherFirst otherEnds otherLater =>
      have one : run = otherRun := by
        rcases Nat.le_total run.length otherRun.length with short | long
        · exact run_eq same first ends otherFirst short
        · exact (run_eq same.symm otherFirst otherEnds first long).symm
      subst one
      rw [List.append_cancel_left_eq] at same
      subst same
      rw [ih otherLater]

end GreedyRuns

end Enigma
