import Mathlib.Logic.Function.Basic
import Mathlib.Order.OrderIsoNat

/-! Systems of parties that move one step at a time. A schedule is the list of the
steps in the order in which they happen; it is a run when each can be taken where it
stands. -/

namespace Enigma

namespace Interleaving

variable {σ α : Type}

def run (step : σ → α → Option σ) (state : σ) : List α → Option σ
  | [] => some state
  | action :: later => (step state action).bind fun next => run step next later

variable {step : σ → α → Option σ} {state after : σ}

/-- What every step keeps, a run keeps. -/
theorem run_keeps (invariant : σ → Prop)
    (kept : ∀ {state after : σ} {action : α}, invariant state → step state action = some after → invariant after)
    {actions : List α} (holds : invariant state) (ran : run step state actions = some after) : invariant after := by
  induction actions generalizing state with
  | nil =>
    cases ran
    exact holds
  | cons action later ih =>
    obtain ⟨next, moved, rest⟩ := Option.bind_eq_some_iff.mp ran
    exact ih (kept holds moved) rest

/-- What a step keeps that ends in an allowed state, a run keeps that only goes through such states. -/
theorem run_keeps_through (invariant allowed : σ → Prop)
    (kept : ∀ {state after : σ} {action : α}, invariant state → allowed after → step state action = some after →
      invariant after)
    {actions : List α} (holds : invariant state) (ran : run step state actions = some after)
    (through : ∀ earlier, earlier <+: actions → ∀ reached, run step state earlier = some reached → allowed reached) :
    invariant after := by
  induction actions generalizing state with
  | nil =>
    cases ran
    exact holds
  | cons action later ih =>
    obtain ⟨next, moved, rest⟩ := Option.bind_eq_some_iff.mp ran
    refine ih (kept holds ?_ moved) rest ?_
    · exact through [action] (List.prefix_cons_inj action |>.mpr List.nil_prefix) next (by rw [run, moved]; rfl)
    · intro earlier initial reached went
      refine through (action :: earlier) ((List.prefix_cons_inj action).mpr initial) reached ?_
      rw [run, moved]
      exact went

/-- Steps that lower a rank cannot go on for ever. -/
theorem no_endless_run {ρ : Type} [Preorder ρ] [WellFoundedLT ρ] (rank : σ → ρ) (invariant : σ → Prop)
    (counts : σ → α → Prop)
    (kept : ∀ {state after : σ} {action : α}, invariant state → counts state action → step state action = some after →
      invariant after)
    (lowers : ∀ {state after : σ} {action : α}, invariant state → counts state action →
      step state action = some after → rank after < rank state)
    {states : Nat → σ} {actions : Nat → α} (holds : invariant (states 0)) :
    ¬∀ k, counts (states k) (actions k) ∧ step (states k) (actions k) = some (states (k + 1)) := by
  intro goes
  have always : ∀ k, invariant (states k) := by
    intro k
    induction k with
    | zero => exact holds
    | succ k ih => exact kept ih (goes k).1 (goes k).2
  refine not_strictAnti_of_wellFoundedLT (rank ∘ states) (strictAnti_nat_of_succ_lt fun k => ?_)
  exact lowers (always k) (goes k).1 (goes k).2

section Observed

variable {ω : Type} {observe : σ → α → Option ω}

/-- What a run shows, in order. -/
def observed (step : σ → α → Option σ) (observe : σ → α → Option ω) (state : σ) : List α → List ω
  | [] => []
  | action :: later =>
    (observe state action).toList ++ (step state action).elim [] fun next => observed step observe next later

/-- What every step keeps, together with what has been seen, a run keeps. -/
theorem run_keeps_observed (invariant : σ → List ω → Prop)
    (kept : ∀ {state after : σ} {action : α} {seen : List ω}, invariant state seen → step state action = some after →
      invariant after (seen ++ (observe state action).toList))
    {actions : List α} {seen : List ω} (holds : invariant state seen) (ran : run step state actions = some after) :
    invariant after (seen ++ observed step observe state actions) := by
  induction actions generalizing state seen with
  | nil =>
    cases ran
    rw [observed, List.append_nil]
    exact holds
  | cons action later ih =>
    obtain ⟨next, moved, rest⟩ := Option.bind_eq_some_iff.mp ran
    rw [observed, moved, Option.elim_some, ← List.append_assoc]
    exact ih (kept holds moved) rest

/-- What every step shows holds of what was seen before it. -/
theorem run_tells (invariant : σ → List ω → Prop) (tells : List ω → ω → Prop)
    (kept : ∀ {state after : σ} {action : α} {seen : List ω}, invariant state seen → step state action = some after →
      invariant after (seen ++ (observe state action).toList))
    (told : ∀ {state after : σ} {action : α} {seen : List ω} {event : ω}, invariant state seen →
      step state action = some after → observe state action = some event → tells seen event)
    {actions : List α} (holds : invariant state []) (ran : run step state actions = some after)
    {before later : List ω} {event : ω} (showed : observed step observe state actions = before ++ event :: later) :
    tells before event := by
  let telling : σ → List ω → Prop := fun state seen => invariant state seen ∧
    ∀ before event later, seen = before ++ event :: later → tells before event
  have keeps : telling after ([] ++ observed step observe state actions) := by
    refine run_keeps_observed telling ?_ ⟨holds, by simp⟩ ran
    rintro state after action seen ⟨invariantHolds, tellsAll⟩ moved
    refine ⟨kept invariantHolds moved, fun before event later same => ?_⟩
    cases shown : observe state action with
    | none =>
      rw [shown, Option.toList_none, List.append_nil] at same
      exact tellsAll before event later same
    | some fresh =>
      rw [shown, Option.toList_some] at same
      rcases List.eq_nil_or_concat later with rfl | ⟨earlier, last, rfl⟩
      · obtain ⟨rfl, ⟨⟩⟩ := List.append_inj' same rfl
        exact told invariantHolds moved shown
      · refine tellsAll before event earlier ?_
        have lasts : seen ++ [fresh] = (before ++ event :: earlier) ++ [last] := by simpa using same
        exact (List.append_inj' lasts rfl).1
  exact keeps.2 before event later showed

end Observed

section Holders

variable {π β : Type} {has : π → Option β} {parties : Nat → π} {held : List β} {n : Nat} {item : β} {phase : π}

/-- Everything that is handed out is with one of the parties, which have at most one thing each. -/
def Holders (has : π → Option β) (parties : Nat → π) (held : List β) : Prop :=
  ∃ holders : List (Nat × β), (holders.map Prod.fst).Nodup ∧ (holders.map Prod.snd).Perm held ∧
    ∀ n item, (n, item) ∈ holders ↔ has (parties n) = some item

theorem Holders.mem (holders : Holders has parties held) (holds : has (parties n) = some item) : item ∈ held := by
  obtain ⟨list, _, perm, listed⟩ := holders
  exact perm.mem_iff.mp (List.mem_map.mpr ⟨(n, item), (listed n item).mpr holds, rfl⟩)

theorem Holders.quiet (holders : Holders has parties held) (was : has (parties n) = none) (later : has phase = none) :
    Holders has (Function.update parties n phase) held := by
  obtain ⟨list, distinct, perm, listed⟩ := holders
  refine ⟨list, distinct, perm, fun m other => ?_⟩
  rw [listed, Function.update_apply]
  split
  · rename_i here
    rw [here, was, later]
  · rfl

theorem Holders.take (holders : Holders has parties held) (was : has (parties n) = none) (later : has phase = some item) :
    Holders has (Function.update parties n phase) (item :: held) := by
  obtain ⟨list, distinct, perm, listed⟩ := holders
  have absent : ∀ other, (n, other) ∉ list := by
    intro other member
    rw [listed, was] at member
    cases member
  refine ⟨(n, item) :: list, List.nodup_cons.mpr ⟨?_, distinct⟩, perm.cons item, fun m other => ?_⟩
  · intro member
    obtain ⟨⟨m, other⟩, inside, rfl⟩ := List.mem_map.mp member
    exact absent other inside
  · rw [List.mem_cons, listed, Prod.mk.injEq, Function.update_apply]
    split
    · rename_i here
      rw [here, was, later, Option.some.injEq]
      simp [eq_comm]
    · rename_i elsewhere
      simp [elsewhere]

theorem Holders.give [DecidableEq β] (holders : Holders has parties held) (was : has (parties n) = some item)
    (later : has phase = none) : Holders has (Function.update parties n phase) (held.erase item) := by
  obtain ⟨list, distinct, perm, listed⟩ := holders
  have member : (n, item) ∈ list := (listed n item).mpr was
  have split := List.perm_cons_erase member
  have names : ((list.map Prod.fst).Perm (n :: (list.erase (n, item)).map Prod.fst)) := split.map Prod.fst
  have items : ((list.map Prod.snd).Perm (item :: (list.erase (n, item)).map Prod.snd)) := split.map Prod.snd
  obtain ⟨unlisted, rest⟩ := List.nodup_cons.mp (names.nodup_iff.mp distinct)
  have holding : item ∈ held := perm.mem_iff.mp (List.mem_map.mpr ⟨(n, item), member, rfl⟩)
  refine ⟨list.erase (n, item), rest, ?_, fun m other => ?_⟩
  · exact ((items.symm.trans perm).trans (List.perm_cons_erase holding)).cons_inv
  · rw [Function.update_apply]
    split
    · rename_i here
      subst here
      rw [later]
      simp only [reduceCtorEq, iff_false]
      exact fun inside => unlisted (List.mem_map.mpr ⟨_, inside, rfl⟩)
    · rename_i elsewhere
      have different : (m, other) ≠ (n, item) := fun same => elsewhere (congrArg Prod.fst same)
      rw [List.mem_erase_of_ne different, listed]

end Holders

end Interleaving

end Enigma
