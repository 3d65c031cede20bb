import Enigma.Foundation.Interleaving
import Mathlib.Data.UInt

/-! The hybrid clock. Any number of calls of `next` run at the same time, on whatever
threads; every access to one of the two atomics is a step of its own. -/

namespace Enigma

namespace TimestampGenerator

/-- What a call does next, with what it has in its variables. -/
inductive Phase where
  | idle
  | loading (wallTime48 : UInt64)
  | counting (wallTime48 prev : UInt64)
  | exchanging (wallTime48 prev candidate : UInt64)
  | returned (value : UInt64)
  deriving DecidableEq

structure State where
  logicalCounter : UInt64
  lastReturned : UInt64
  calls : Nat → Phase

def new : State := ⟨0, 0, fun _ => .idle⟩

/-- A call begins when it reads the clock. The exchange may fail although nothing has
changed. -/
inductive Act where
  | begin (id : Nat) (millis : Int64)
  | load (id : Nat)
  | increment (id : Nat)
  | exchange (id : Nat) (spurious : Bool)

def wallTime48 (millis : Int64) : UInt64 := (millis.toUInt64 &&& 0xFFFFFFFFFFFF) <<< 16

def candidate (wallTime48 counter prev : UInt64) : UInt64 :=
  if wallTime48 ||| (counter &&& 0xFFFF) ≤ prev then prev + 1 else wallTime48 ||| (counter &&& 0xFFFF)

def State.enter (state : State) (id : Nat) (phase : Phase) : State :=
  { state with calls := Function.update state.calls id phase }

def step (state : State) : Act → Option State
  | .begin id millis =>
    match state.calls id with
    | .idle => some (state.enter id (.loading (wallTime48 millis)))
    | _ => none
  | .load id =>
    match state.calls id with
    | .loading wallTime48 => some (state.enter id (.counting wallTime48 state.lastReturned))
    | _ => none
  | .increment id =>
    match state.calls id with
    | .counting wallTime48 prev =>
      let counted := { state with logicalCounter := state.logicalCounter + 1 }
      some (counted.enter id (.exchanging wallTime48 prev (candidate wallTime48 state.logicalCounter prev)))
    | _ => none
  | .exchange id spurious =>
    match state.calls id with
    | .exchanging wallTime48 prev candidate =>
      if state.lastReturned = prev ∧ spurious = false then
        some ({ state with lastReturned := candidate }.enter id (.returned candidate))
      else
        some (state.enter id (.loading wallTime48))
    | _ => none

/-- The largest value. What comes after it is zero. -/
def limit : UInt64 := 0xFFFFFFFFFFFFFFFF

theorem lt_candidate (wallTime48 counter : UInt64) {prev : UInt64} (below : prev ≠ limit) :
    prev < candidate wallTime48 counter prev := by
  have small := prev.toNat_lt
  have differs := mt UInt64.toNat_inj.mp below
  rw [show limit.toNat = 2 ^ 64 - 1 from rfl] at differs
  unfold candidate
  split
  · rw [UInt64.lt_iff_toNat_lt, UInt64.toNat_add, show (1 : UInt64).toNat = 1 from rfl, Nat.mod_eq_of_lt (by omega)]
    exact Nat.lt_succ_self _
  · exact UInt64.not_le.mp ‹_›

variable {state after : State} {act : Act}

/-- A step that returns nothing: it moves one call that has not returned. -/
structure Moves (state after : State) (id : Nat) (phase : Phase) : Prop where
  unreturned : ∀ value, state.calls id ≠ .returned value
  remains : ∀ value, phase ≠ .returned value
  ahead : ∀ wallTime48 prev candidate, phase = .exchanging wallTime48 prev candidate → prev = limit ∨ prev < candidate
  calls : after.calls = Function.update state.calls id phase
  last : after.lastReturned = state.lastReturned

/-- A step that returns: the last value has not changed since the call has read it. -/
structure Returns (state after : State) (id : Nat) (value : UInt64) : Prop where
  was : ∃ wallTime48, state.calls id = .exchanging wallTime48 state.lastReturned value
  calls : after.calls = Function.update state.calls id (.returned value)
  last : after.lastReturned = value

theorem step_cases (moved : step state act = some after) :
    (∃ id phase, Moves state after id phase) ∨ ∃ id value, Returns state after id value := by
  cases act with
  | begin id millis =>
    cases phase : state.calls id with
    | idle =>
      simp only [step, phase, Option.some.injEq] at moved
      subst moved
      exact .inl ⟨id, .loading (wallTime48 millis), by simp [phase], by simp, by simp, rfl, rfl⟩
    | _ => simp [step, phase] at moved
  | load id =>
    cases phase : state.calls id with
    | loading wallTime48 =>
      simp only [step, phase, Option.some.injEq] at moved
      subst moved
      exact .inl ⟨id, .counting wallTime48 state.lastReturned, by simp [phase], by simp, by simp, rfl, rfl⟩
    | _ => simp [step, phase] at moved
  | increment id =>
    cases phase : state.calls id with
    | counting wallTime48 prev =>
      simp only [step, phase, Option.some.injEq] at moved
      subst moved
      refine .inl ⟨id, .exchanging wallTime48 prev (candidate wallTime48 state.logicalCounter prev), by simp [phase],
        by simp, ?_, rfl, rfl⟩
      intro _ _ _ same
      cases same
      exact or_iff_not_imp_left.mpr (lt_candidate wallTime48 state.logicalCounter)
    | _ => simp [step, phase] at moved
  | exchange id spurious =>
    cases phase : state.calls id with
    | exchanging wallTime48 prev candidate =>
      simp only [step, phase] at moved
      split at moved
      · rename_i unchanged
        cases moved
        exact .inr ⟨id, candidate, ⟨wallTime48, by rw [phase, unchanged.1]⟩, rfl, rfl⟩
      · cases moved
        exact .inl ⟨id, .loading wallTime48, by simp [phase], by simp, by simp, rfl, rfl⟩
    | _ => simp [step, phase] at moved

/-- What has been returned so far, each value once. -/
structure Ordered (state : State) : Prop where
  bounded : ∀ id value, state.calls id = .returned value → value ≤ state.lastReturned
  latest : state.lastReturned = 0 ∨ ∃ id, state.calls id = .returned state.lastReturned
  ahead : ∀ id wallTime48 prev candidate, state.calls id = .exchanging wallTime48 prev candidate →
    prev = limit ∨ prev < candidate
  distinct : ∀ id other value, state.calls id = .returned value → state.calls other = .returned value → id = other

theorem new_ordered : Ordered new where
  bounded := by simp [new]
  latest := .inl rfl
  ahead := by simp [new]
  distinct := by simp [new]

/-- No value returned is the largest. -/
def Unexhausted (state : State) : Prop := ∀ id, state.calls id ≠ .returned limit

theorem Moves.returned_iff {id other : Nat} {phase : Phase} {value : UInt64} (moves : Moves state after id phase) :
    after.calls other = .returned value ↔ state.calls other = .returned value := by
  rw [moves.calls, Function.update_apply]
  by_cases same : other = id
  · rw [if_pos same, same]
    exact iff_of_false (moves.remains value) (moves.unreturned value)
  · rw [if_neg same]

theorem Returns.returned_iff {id other : Nat} {fresh value : UInt64} (returns : Returns state after id fresh) :
    after.calls other = .returned value ↔ (other = id ∧ value = fresh) ∨ state.calls other = .returned value := by
  obtain ⟨wallTime48, was⟩ := returns.was
  rw [returns.calls, Function.update_apply]
  by_cases same : other = id
  · rw [if_pos same, same, was]
    simp [eq_comm]
  · simp [same]

theorem step_returned {id : Nat} {value : UInt64} (moved : step state act = some after)
    (returned : state.calls id = .returned value) : after.calls id = .returned value := by
  rcases step_cases moved with ⟨mover, phase, moves⟩ | ⟨mover, fresh, returns⟩
  · exact moves.returned_iff.mpr returned
  · exact returns.returned_iff.mpr (.inr returned)

/-- A value that is returned is larger than all that were returned before. -/
theorem Returns.larger {id : Nat} {fresh : UInt64} (returns : Returns state after id fresh) (ordered : Ordered state)
    (unexhausted : Unexhausted state) : state.lastReturned < fresh := by
  obtain ⟨wallTime48, was⟩ := returns.was
  rcases ordered.ahead _ _ _ _ was with largest | larger
  · rcases ordered.latest with zero | ⟨other, latest⟩
    · exact absurd (zero.symm.trans largest) (by decide)
    · exact absurd (latest.trans (congrArg Phase.returned largest)) (unexhausted other)
  · exact larger

theorem step_ordered (ordered : Ordered state) (unexhausted : Unexhausted state) (moved : step state act = some after) :
    Ordered after := by
  rcases step_cases moved with ⟨id, phase, moves⟩ | ⟨id, fresh, returns⟩
  · constructor
    · intro other value returned
      rw [moves.last]
      exact ordered.bounded other value (moves.returned_iff.mp returned)
    · rw [moves.last]
      rcases ordered.latest with zero | ⟨other, returned⟩
      · exact .inl zero
      · exact .inr ⟨other, moves.returned_iff.mpr returned⟩
    · intro other wallTime48 prev candidate exchanging
      rw [moves.calls, Function.update_apply] at exchanging
      split at exchanging
      · exact moves.ahead wallTime48 prev candidate exchanging
      · exact ordered.ahead other wallTime48 prev candidate exchanging
    · intro one other value first second
      exact ordered.distinct one other value (moves.returned_iff.mp first) (moves.returned_iff.mp second)
  · have larger := returns.larger ordered unexhausted
    constructor
    · intro other value returned
      rw [returns.last]
      rcases returns.returned_iff.mp returned with ⟨_, rfl⟩ | earlier
      · exact UInt64.le_refl _
      · exact UInt64.le_of_lt (UInt64.lt_of_le_of_lt (ordered.bounded other value earlier) larger)
    · exact .inr ⟨id, returns.returned_iff.mpr (.inl ⟨rfl, returns.last⟩)⟩
    · intro other wallTime48 prev candidate exchanging
      rw [returns.calls, Function.update_apply] at exchanging
      split at exchanging
      · cases exchanging
      · exact ordered.ahead other wallTime48 prev candidate exchanging
    · have fresher : ∀ other, state.calls other ≠ .returned fresh := fun other returned =>
        UInt64.not_le.mpr larger (ordered.bounded other fresh returned)
      intro one other value first second
      rcases returns.returned_iff.mp first with ⟨rfl, rfl⟩ | earlier
      · rcases returns.returned_iff.mp second with ⟨rfl, _⟩ | before
        · rfl
        · exact absurd before (fresher other)
      · rcases returns.returned_iff.mp second with ⟨_, rfl⟩ | before
        · exact absurd earlier (fresher one)
        · exact ordered.distinct one other value earlier before

/-- Everything returned since some state is larger than the last value then. -/
structure Since (before state : State) : Prop where
  ordered : Ordered state
  last : before.lastReturned ≤ state.lastReturned
  larger : ∀ id value, state.calls id = .returned value →
    before.calls id = .returned value ∨ before.lastReturned < value

theorem step_since {before : State} (since : Since before state) (unexhausted : Unexhausted state)
    (moved : step state act = some after) : Since before after := by
  refine ⟨step_ordered since.ordered unexhausted moved, ?_, ?_⟩
  · rcases step_cases moved with ⟨id, phase, moves⟩ | ⟨id, fresh, returns⟩
    · rw [moves.last]
      exact since.last
    · rw [returns.last]
      exact UInt64.le_of_lt (UInt64.lt_of_le_of_lt since.last (returns.larger since.ordered unexhausted))
  · intro other value returned
    rcases step_cases moved with ⟨id, phase, moves⟩ | ⟨id, fresh, returns⟩
    · exact since.larger other value (moves.returned_iff.mp returned)
    · rcases returns.returned_iff.mp returned with ⟨_, rfl⟩ | earlier
      · exact .inr (UInt64.lt_of_le_of_lt since.last (returns.larger since.ordered unexhausted))
      · exact since.larger other value earlier

theorem run_returned {acts : List Act} {id : Nat} {value : UInt64} (returned : state.calls id = .returned value)
    (ran : Interleaving.run step state acts = some after) : after.calls id = .returned value :=
  Interleaving.run_keeps (fun state => state.calls id = .returned value) (fun held moved => step_returned moved held)
    returned ran

/-- A run up to a state where the values have not been exhausted. -/
theorem run_since {before : State} {acts : List Act} (ordered : Unexhausted before → Ordered before)
    (ran : Interleaving.run step before acts = some after) : Unexhausted after → Since before after := by
  refine Interleaving.run_keeps (fun state => Unexhausted state → Since before state) ?_ ?_ ran
  · intro state next act since moved unexhausted
    have earlier : Unexhausted state := fun id returned => unexhausted id (step_returned moved returned)
    exact step_since (since earlier) earlier moved
  · intro unexhausted
    exact ⟨ordered unexhausted, UInt64.le_refl _, fun _ _ returned => .inl returned⟩

theorem timestamps_unique_and_monotone {before after : State} {earlier later : List Act}
    (reached : Interleaving.run step new earlier = some before)
    (continued : Interleaving.run step before later = some after)
    (below : ∀ id value, after.calls id = .returned value → value.toNat < 2 ^ 64 - 1) :
    (∀ id other value another, id ≠ other → after.calls id = .returned value → after.calls other = .returned another →
        value ≠ another) ∧
      ∀ id other value another, before.calls id = .returned value → before.calls other = .idle →
        after.calls other = .returned another → value < another := by
  have unexhausted : Unexhausted after := fun id returned => absurd (below id limit returned) (by decide)
  have first := run_since (fun _ => new_ordered) reached
  have since := run_since (fun fine => (first fine).ordered) continued unexhausted
  constructor
  · rintro id other value another different one second rfl
    exact different (since.ordered.distinct id other value one second)
  · intro id other value another returned idle finished
    have fine : Unexhausted before := fun id held => unexhausted id (run_returned held continued)
    rcases since.larger other another finished with already | larger
    · rw [idle] at already
      cases already
    · exact UInt64.lt_of_le_of_lt ((first fine).ordered.bounded id value returned) larger

/-- The second call reads an earlier time, and its first exchange fails for no reason. -/
theorem two_timestamps_in_order :
    ∃ before after, Interleaving.run step new [.begin 0 5, .load 0, .increment 0, .exchange 0 false] = some before ∧
      Interleaving.run step before [.begin 1 4, .load 1, .increment 1, .exchange 1 true, .load 1, .increment 1,
        .exchange 1 false] = some after ∧
      before.calls 0 = .returned 327680 ∧ after.calls 1 = .returned 327681 ∧ (327680 : UInt64) < 327681 := by
  obtain ⟨before, after, reached, continued, first, idle, second, values⟩ : ∃ before after,
      Interleaving.run step new [.begin 0 5, .load 0, .increment 0, .exchange 0 false] = some before ∧
      Interleaving.run step before [.begin 1 4, .load 1, .increment 1, .exchange 1 true, .load 1, .increment 1,
        .exchange 1 false] = some after ∧
      before.calls 0 = .returned 327680 ∧ before.calls 1 = .idle ∧ after.calls 1 = .returned 327681 ∧
      ∀ id value, after.calls id = .returned value → value = 327680 ∨ value = 327681 := by
    refine ⟨_, _, rfl, rfl, rfl, rfl, rfl, ?_⟩
    intro id value returned
    by_cases here : id = 1
    · subst here
      cases returned
      exact .inr rfl
    · by_cases there : id = 0
      · subst there
        cases returned
        exact .inl rfl
      · simp [State.enter, here, there, new] at returned
  refine ⟨before, after, reached, continued, first, second, ?_⟩
  refine (timestamps_unique_and_monotone reached continued ?_).2 0 1 _ _ first idle second
  intro id value returned
  rcases values id value returned with rfl | rfl <;> decide

end TimestampGenerator

end Enigma
