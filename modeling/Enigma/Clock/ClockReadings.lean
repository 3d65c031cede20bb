import Enigma.Clock.TimestampGenerator
import Mathlib.Algebra.Order.Ring.Nat

/-! What the hybrid clock has to do with the system clock, and how long a call can take.
Both are about whole runs: which calls have begun and returned before a value is returned. -/

namespace Enigma

namespace TimestampGenerator

/-- What a step of a call is to somebody who watches. An exchange is lost to another
call when the last value has changed; otherwise it has failed for no reason. -/
inductive Event where
  | began (id : Nat) (millis : Int64)
  | worked (id : Nat)
  | lost (id : Nat)
  | failed (id : Nat)
  | returned (id : Nat) (value : UInt64)
  deriving DecidableEq

def Event.call : Event → Nat
  | .began id _ | .worked id | .lost id | .failed id | .returned id _ => id

def observe (state : State) : Act → Option Event
  | .begin id millis => some (.began id millis)
  | .load id | .increment id => some (.worked id)
  | .exchange id spurious =>
    match state.calls id with
    | .exchanging _ prev candidate =>
      if state.lastReturned = prev ∧ spurious = false then some (.returned id candidate)
      else if state.lastReturned = prev then some (.failed id)
      else some (.lost id)
    | _ => none

/-- What a run shows, in order. -/
def events (state : State) (acts : List Act) : List Event := Interleaving.observed step observe state acts

variable {state after : State} {act : Act} {event : Event} {seen : List Event} {id : Nat}

/-- All that a step can do. -/
inductive Shows (state : State) : Event → State → Prop
  | began {id : Nat} {millis : Int64} (was : state.calls id = .idle) :
    Shows state (.began id millis) (state.enter id (.loading (wallTime48 millis)))
  | loaded {id : Nat} {wallTime48 : UInt64} (was : state.calls id = .loading wallTime48) :
    Shows state (.worked id) (state.enter id (.counting wallTime48 state.lastReturned))
  | counted {id : Nat} {wallTime48 prev : UInt64} (was : state.calls id = .counting wallTime48 prev) :
    Shows state (.worked id) ({ state with logicalCounter := state.logicalCounter + 1 }.enter id
      (.exchanging wallTime48 prev (candidate wallTime48 state.logicalCounter prev)))
  | lost {id : Nat} {wallTime48 prev candidate : UInt64} (was : state.calls id = .exchanging wallTime48 prev candidate)
    (changed : state.lastReturned ≠ prev) : Shows state (.lost id) (state.enter id (.loading wallTime48))
  | failed {id : Nat} {wallTime48 candidate : UInt64}
    (was : state.calls id = .exchanging wallTime48 state.lastReturned candidate) :
    Shows state (.failed id) (state.enter id (.loading wallTime48))
  | returned {id : Nat} {wallTime48 value : UInt64}
    (was : state.calls id = .exchanging wallTime48 state.lastReturned value) :
    Shows state (.returned id value) ({ state with lastReturned := value }.enter id (.returned value))

theorem step_shows (moved : step state act = some after) :
    ∃ event, observe state act = some event ∧ Shows state event after := by
  cases act with
  | begin id millis =>
    cases was : state.calls id with
    | idle =>
      simp only [step, was, Option.some.injEq] at moved
      subst moved
      exact ⟨_, rfl, .began was⟩
    | _ => simp [step, was] at moved
  | load id =>
    cases was : state.calls id with
    | loading wallTime48 =>
      simp only [step, was, Option.some.injEq] at moved
      subst moved
      exact ⟨_, rfl, .loaded was⟩
    | _ => simp [step, was] at moved
  | increment id =>
    cases was : state.calls id with
    | counting wallTime48 prev =>
      simp only [step, was, Option.some.injEq] at moved
      subst moved
      exact ⟨_, rfl, .counted was⟩
    | _ => simp [step, was] at moved
  | exchange id spurious =>
    cases was : state.calls id with
    | exchanging wallTime48 prev candidate =>
      simp only [step, was] at moved
      simp only [observe, was]
      by_cases unchanged : state.lastReturned = prev
      · subst unchanged
        cases spurious with
        | false =>
          simp only [and_self, if_true, Option.some.injEq] at moved
          subst moved
          exact ⟨_, by simp, .returned was⟩
        | true =>
          simp only [reduceCtorEq, and_false, if_false, Option.some.injEq] at moved
          subst moved
          exact ⟨_, by simp, .failed was⟩
      · simp only [unchanged, false_and, if_false, Option.some.injEq] at moved
        subst moved
        exact ⟨_, by simp [unchanged], .lost was unchanged⟩
    | _ => simp [step, was] at moved

section Steps

/-- How far the call is in its current try. -/
def Phase.tried : Phase → Nat
  | .idle => 0
  | .loading _ => 1
  | .counting _ _ => 2
  | .exchanging _ _ _ => 3
  | .returned _ => 4

/-- The call works with a value that is no longer the last. -/
def Phase.outdated (last : UInt64) : Phase → Nat
  | .counting _ prev | .exchanging _ prev _ => if prev = last then 0 else 1
  | _ => 0

theorem Phase.tried_le (phase : Phase) : phase.tried ≤ 4 := by
  cases phase <;> simp [tried]

theorem Phase.outdated_le (phase : Phase) (last : UInt64) : phase.outdated last ≤ 1 := by
  cases phase with
  | counting _ prev =>
    rw [outdated]
    split <;> simp
  | exchanging _ prev _ =>
    rw [outdated]
    split <;> simp
  | _ => simp [outdated]

def stepsOf (id : Nat) (seen : List Event) : Nat := seen.countP (·.call = id)

def failuresOf (id : Nat) (seen : List Event) : Nat := seen.countP (· = .failed id)

def Event.serves (id : Nat) : Event → Bool
  | .returned other _ => other ≠ id
  | _ => false

/-- How many other calls have returned. -/
def otherReturns (id : Nat) (seen : List Event) : Nat := seen.countP (·.serves id)

/-- A try costs three steps, and another one is due to a failure for no reason or to
another call that has returned. -/
def Paid (id : Nat) (state : State) (seen : List Event) : Prop :=
  stepsOf id seen + 3 * (state.calls id).outdated state.lastReturned ≤
    (state.calls id).tried + 3 * (failuresOf id seen + otherReturns id seen)

@[simp] theorem State.enter_self (state : State) (id : Nat) (phase : Phase) : (state.enter id phase).calls id = phase :=
  Function.update_self ..

theorem State.enter_other {other : Nat} (different : id ≠ other) (phase : Phase) :
    (state.enter other phase).calls id = state.calls id :=
  Function.update_of_ne different ..

theorem Shows.elsewhere (shows : Shows state event after) (elsewhere : event.call ≠ id) :
    after.calls id = state.calls id ∧ (after.lastReturned = state.lastReturned ∨ event.serves id = true) := by
  have different := elsewhere.symm
  cases shows with
  | returned was => exact ⟨State.enter_other different _, .inr (decide_eq_true elsewhere)⟩
  | _ => exact ⟨State.enter_other different _, .inl rfl⟩

/-- What a step costs the call that takes it. -/
theorem Shows.own (shows : Shows state event after) (own : event.call = id) :
    1 + (state.calls id).tried + 3 * (after.calls id).outdated after.lastReturned ≤
      (after.calls id).tried + 3 * (if event = .failed id then 1 else 0) +
        3 * (state.calls id).outdated state.lastReturned := by
  subst own
  cases shows with
  | began was => simp [Event.call, was, Phase.tried, Phase.outdated]
  | loaded was => simp [Event.call, was, Phase.tried, Phase.outdated, State.enter]
  | counted was =>
    simp only [Event.call, was, Phase.tried, State.enter_self, Phase.outdated]
    exact Nat.add_le_add_right (Nat.le_add_right _ _) _
  | lost was changed => simp [Event.call, was, Phase.tried, Phase.outdated, changed.symm]
  | failed was => simp [Event.call, was, Phase.tried, Phase.outdated]
  | returned was => simp [Event.call, was, Phase.tried, Phase.outdated]

theorem Paid.shows (paid : Paid id state seen) (shows : Shows state event after) : Paid id after (seen ++ [event]) := by
  unfold Paid stepsOf failuresOf otherReturns at paid ⊢
  simp only [List.countP_append, List.countP_singleton, decide_eq_true_eq]
  by_cases own : event.call = id
  · have cost := shows.own own
    rw [if_pos own]
    omega
  · obtain ⟨same, last⟩ := shows.elsewhere own
    rw [if_neg own, same]
    rcases last with unchanged | served
    · rw [unchanged]
      omega
    · have little := (state.calls id).outdated_le after.lastReturned
      rw [if_pos served]
      omega

theorem step_paid (paid : Paid id state seen) (moved : step state act = some after) :
    Paid id after (seen ++ (observe state act).toList) := by
  obtain ⟨event, shown, shows⟩ := step_shows moved
  rw [shown]
  exact paid.shows shows

theorem calls_wait_only_for_returns {before after : State} {acts : List Act} {id : Nat}
    (idle : before.calls id = .idle) (ran : Interleaving.run step before acts = some after) :
    stepsOf id (events before acts) ≤
      4 + 3 * (failuresOf id (events before acts) + otherReturns id (events before acts)) := by
  have start : Paid id before [] := by simp [Paid, idle, stepsOf, Phase.outdated]
  have paid : Paid id after ([] ++ events before acts) := Interleaving.run_keeps_observed (Paid id) step_paid start ran
  have tried := (after.calls id).tried_le
  rw [List.nil_append] at paid
  unfold Paid at paid
  omega

/-- The second call returns between the first one's load and its exchange. -/
def overtaken : List Act :=
  [.begin 0 5, .load 0, .begin 1 5, .load 1, .increment 1, .exchange 1 false, .increment 0, .exchange 0 false,
    .load 0, .increment 0, .exchange 0 false]

theorem calls_wait_only_for_returns_overtaken :
    (Interleaving.run step new overtaken).map (·.calls 0) = some (.returned 327682) ∧
      stepsOf 0 (events new overtaken) = 7 ∧
      stepsOf 0 (events new overtaken) ≤
        4 + 3 * (failuresOf 0 (events new overtaken) + otherReturns 0 (events new overtaken)) :=
  ⟨rfl, rfl, calls_wait_only_for_returns rfl rfl⟩

end Steps

section Readings

theorem or_le_add (a b : Nat) : a ||| b ≤ a + b := by
  induction a using Nat.strongRecOn generalizing b with
  | _ a ih =>
    by_cases zero : a = 0
    · simp [zero]
    · have halves := ih (a / 2) (by omega) (b / 2)
      rw [← Nat.or_div_two] at halves
      have odd : (a ||| b) % 2 = 1 → a % 2 = 1 ∨ b % 2 = 1 := Nat.or_mod_two_eq_one.mp
      omega

theorem le_candidate (wallTime48 counter : UInt64) {prev : UInt64} (below : prev ≠ limit) :
    wallTime48 ≤ candidate wallTime48 counter prev := by
  have larger : wallTime48 ≤ wallTime48 ||| (counter &&& 0xFFFF) := by
    rw [UInt64.le_iff_toNat_le, UInt64.toNat_or]
    exact Nat.left_le_or
  by_cases behind : wallTime48 ||| (counter &&& 0xFFFF) ≤ prev
  · have ahead := lt_candidate wallTime48 counter below
    exact UInt64.le_of_lt (UInt64.lt_of_le_of_lt (UInt64.le_trans larger behind) ahead)
  · rw [candidate, if_neg behind]
    exact larger

theorem candidate_le (wallTime48 counter prev : UInt64) :
    (candidate wallTime48 counter prev).toNat ≤ max (wallTime48.toNat + 0xFFFF) (prev.toNat + 1) := by
  unfold candidate
  split
  · refine Nat.le_trans ?_ (Nat.le_max_right _ _)
    rw [UInt64.toNat_add]
    exact Nat.mod_le _ _
  · refine Nat.le_trans ?_ (Nat.le_max_left _ _)
    rw [UInt64.toNat_or, UInt64.toNat_and]
    exact Nat.le_trans (or_le_add _ _) (Nat.add_le_add_left Nat.and_le_right _)

def Event.isReturn : Event → Bool
  | .returned _ _ => true
  | _ => false

/-- How many values have been returned. -/
def returns (seen : List Event) : Nat := seen.countP (·.isReturn)

def HasRead (seen : List Event) (id : Nat) (wallTime48 : UInt64) : Prop :=
  ∃ millis, .began id millis ∈ seen ∧ wallTime48 = TimestampGenerator.wallTime48 millis

/-- The value is at most so much further than the clock was for one of the calls. -/
def Near (seen : List Event) (value : UInt64) (further : Nat) : Prop :=
  ∃ id millis, .began id millis ∈ seen ∧ value.toNat ≤ (wallTime48 millis).toNat + 0xFFFF + further

def PhaseTimed (seen : List Event) (id : Nat) : Phase → Prop
  | .loading wallTime48 | .counting wallTime48 _ => HasRead seen id wallTime48
  | .exchanging wallTime48 prev candidate => HasRead seen id wallTime48 ∧
    (prev ≠ limit → wallTime48 ≤ candidate) ∧ candidate.toNat ≤ max (wallTime48.toNat + 0xFFFF) (prev.toNat + 1)
  | _ => True

structure Timed (state : State) (seen : List Event) : Prop where
  phases : ∀ id, PhaseTimed seen id (state.calls id)
  latest : (state.lastReturned = 0 ∧ returns seen = 0) ∨
    ∃ id further, .returned id state.lastReturned ∈ seen ∧ returns seen = further + 1 ∧
      Near seen state.lastReturned further

theorem HasRead.more {wallTime48 : UInt64} (read : HasRead seen id wallTime48) (event : Event) :
    HasRead (seen ++ [event]) id wallTime48 := by
  obtain ⟨millis, began, same⟩ := read
  exact ⟨millis, List.mem_append_left _ began, same⟩

theorem Near.more {value : UInt64} {further : Nat} (near : Near seen value further) (event : Event) :
    Near (seen ++ [event]) value further := by
  obtain ⟨id, millis, began, bounded⟩ := near
  exact ⟨id, millis, List.mem_append_left _ began, bounded⟩

theorem PhaseTimed.more {phase : Phase} (timed : PhaseTimed seen id phase) (event : Event) :
    PhaseTimed (seen ++ [event]) id phase := by
  cases phase with
  | loading _ => exact HasRead.more timed event
  | counting _ _ => exact HasRead.more timed event
  | exchanging _ _ _ => exact ⟨timed.1.more event, timed.2⟩
  | _ => trivial

theorem Timed.enter {phase : Phase} (timed : Timed state seen) (entered : PhaseTimed (seen ++ [event]) id phase)
    (other : Nat) : PhaseTimed (seen ++ [event]) other ((state.enter id phase).calls other) := by
  by_cases same : other = id
  · subst same
    rw [State.enter_self]
    exact entered
  · rw [State.enter_other same]
    exact (timed.phases other).more event

/-- A step that returns nothing. -/
theorem Timed.quiet {changed : State} {phase : Phase} (timed : Timed state seen)
    (unchanged : changed = { state with logicalCounter := changed.logicalCounter }) (silent : event.isReturn = false)
    (entered : PhaseTimed (seen ++ [event]) id phase) : Timed (changed.enter id phase) (seen ++ [event]) := by
  rw [unchanged]
  refine ⟨timed.enter entered, ?_⟩
  have count : returns (seen ++ [event]) = returns seen := by simp [returns, silent]
  rw [count]
  rcases timed.latest with none | ⟨other, further, returned, number, near⟩
  · exact .inl none
  · exact .inr ⟨other, further, List.mem_append_left _ returned, number, near.more event⟩

/-- The last value and so the one that comes next are not far from a clock that was read. -/
theorem Timed.next_near {wallTime48 value : UInt64} (timed : Timed state seen)
    (exchanging : state.calls id = .exchanging wallTime48 state.lastReturned value) :
    Near seen value (returns seen) := by
  have phase := timed.phases id
  rw [exchanging] at phase
  obtain ⟨⟨millis, began, rfl⟩, -, bounded⟩ := phase
  rcases timed.latest with ⟨zero, none⟩ | ⟨other, further, -, number, another, reading, earlier, near⟩
  · refine ⟨id, millis, began, ?_⟩
    rw [zero, show (0 : UInt64).toNat = 0 from rfl] at bounded
    omega
  · rcases le_max_iff.mp bounded with own | successor
    · exact ⟨id, millis, began, by omega⟩
    · exact ⟨another, reading, earlier, by omega⟩

theorem Timed.next_behind {wallTime48 value : UInt64} (timed : Timed state seen)
    (unexhausted : ∀ id, .returned id limit ∉ seen)
    (exchanging : state.calls id = .exchanging wallTime48 state.lastReturned value) : wallTime48 ≤ value := by
  have phase := timed.phases id
  rw [exchanging] at phase
  refine phase.2.1 fun largest => ?_
  rcases timed.latest with ⟨zero, -⟩ | ⟨other, -, returned, -⟩
  · exact absurd (zero.symm.trans largest) (by decide)
  · exact unexhausted other (largest ▸ returned)

theorem Timed.shows (timed : Timed state seen) (shows : Shows state event after) : Timed after (seen ++ [event]) := by
  cases shows with
  | began was => exact timed.quiet rfl rfl ⟨_, List.mem_concat_self, rfl⟩
  | @loaded id wallTime48 was =>
    have phase := timed.phases id
    rw [was] at phase
    exact timed.quiet rfl rfl (HasRead.more phase _)
  | @counted id wallTime48 prev was =>
    have phase := timed.phases id
    rw [was] at phase
    exact timed.quiet rfl rfl ⟨HasRead.more phase _, le_candidate _ _, candidate_le _ _ _⟩
  | @lost id _ _ _ was changed =>
    have phase := timed.phases id
    rw [was] at phase
    exact timed.quiet rfl rfl (phase.1.more _)
  | @failed id _ _ was =>
    have phase := timed.phases id
    rw [was] at phase
    exact timed.quiet rfl rfl (phase.1.more _)
  | @returned id _ value was =>
    refine ⟨timed.enter trivial, .inr ⟨id, returns seen, List.mem_concat_self, ?_, (timed.next_near was).more _⟩⟩
    simp [returns, Event.isReturn]

theorem step_timed (timed : Timed state seen) (moved : step state act = some after) :
    Timed after (seen ++ (observe state act).toList) := by
  obtain ⟨event, shown, shows⟩ := step_shows moved
  rw [shown]
  exact timed.shows shows

/-- What is known of the clock when something happens. -/
def Tells (seen : List Event) : Event → Prop
  | .returned id value => (∀ id, .returned id limit ∉ seen) →
    (∃ millis, .began id millis ∈ seen ∧ wallTime48 millis ≤ value) ∧ Near seen value (returns seen)
  | _ => True

theorem Shows.tells (shows : Shows state event after) (timed : Timed state seen) : Tells seen event := by
  cases shows with
  | @returned id _ value was =>
    intro unexhausted
    have behind := timed.next_behind unexhausted was
    have phase := timed.phases id
    rw [was] at phase
    obtain ⟨⟨millis, began, rfl⟩, -⟩ := phase
    exact ⟨⟨millis, began, behind⟩, timed.next_near was⟩
  | _ => trivial

theorem timestamps_track_the_clock {after : State} {acts : List Act} (ran : Interleaving.run step new acts = some after)
    {before later : List Event} {id : Nat} {value : UInt64}
    (returned : events new acts = before ++ .returned id value :: later)
    (below : ∀ other earlier, .returned other earlier ∈ before → earlier.toNat < 2 ^ 64 - 1) :
    (∃ millis, .began id millis ∈ before ∧ wallTime48 millis ≤ value) ∧
      ∃ other millis, .began other millis ∈ before ∧
        value.toNat ≤ (wallTime48 millis).toNat + 0xFFFF + returns before := by
  have start : Timed new [] := ⟨fun _ => trivial, .inl ⟨rfl, rfl⟩⟩
  refine Interleaving.run_tells Timed Tells step_timed ?_ start ran returned ?_
  · intro state after act seen event timed moved shown
    obtain ⟨event, same, shows⟩ := step_shows moved
    cases same.symm.trans shown
    exact shows.tells timed
  · intro other largest
    exact absurd (below other limit largest) (by decide)

/-- The call that has read the earlier clock comes second. -/
def earlierClockSecond : List Act :=
  [.begin 0 5, .begin 1 4, .load 0, .increment 0, .exchange 0 false, .load 1, .increment 1, .exchange 1 false]

def seenBeforeSecond : List Event :=
  [.began 0 5, .began 1 4, .worked 0, .worked 0, .returned 0 327680, .worked 1, .worked 1]

theorem timestamps_track_the_clock_earlier_clock :
    events new earlierClockSecond = seenBeforeSecond ++ [.returned 1 327681] ∧
      (∃ millis, .began 1 millis ∈ seenBeforeSecond ∧ wallTime48 millis ≤ 327681) ∧
      ∃ other millis, .began other millis ∈ seenBeforeSecond ∧
        (327681 : UInt64).toNat ≤ (wallTime48 millis).toNat + 0xFFFF + returns seenBeforeSecond := by
  have shown : events new earlierClockSecond = seenBeforeSecond ++ [.returned 1 327681] := rfl
  obtain ⟨after, ran⟩ : ∃ after, Interleaving.run step new earlierClockSecond = some after := ⟨_, rfl⟩
  refine ⟨shown, timestamps_track_the_clock ran shown ?_⟩
  intro other earlier returned
  have first : other = 0 ∧ earlier = 327680 := by simpa [seenBeforeSecond] using returned
  rw [first.2]
  decide

end Readings

end TimestampGenerator

end Enigma
