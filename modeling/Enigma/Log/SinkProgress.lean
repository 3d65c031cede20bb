import Enigma.Log.SinkAccounting
import Enigma.Log.SinkSleepers
import Mathlib.Algebra.Order.BigOperators.Group.Finset
import Mathlib.Data.Prod.Lex

/-! Nobody waits for ever. Whatever those do who are awake, it comes to an end, and then
every call has returned. -/

namespace Enigma

namespace Log

namespace Waits

variable {state after : State} {act : Act}

section Rank

def holds (mutex : Option Party) (party : Party) : Bool := mutex = some party

def submitLeft : SubmitPhase → Nat
  | .idle | .returned _ => 0
  | _ => 1

def flushLeft : FlushPhase → Nat
  | .waiting => 1
  | _ => 0

/-- How many calls have not returned. -/
def callsLeft (n : Nat) (base : Log.State) : Nat :=
  ∑ id ∈ Finset.range n, (submitLeft (base.calls id) + flushLeft (base.flushes id))

def submitRank (dozing : Bool) (wait : Wait) : SubmitPhase → Nat
  | .entering _ => 4
  | .blocked _ => if dozing then 2 else if wait = .awake then 3 else 0
  | .inline _ => 1
  | _ => 0

def flushRank (dozing : Bool) (wait : Wait) : FlushPhase → Nat
  | .waiting => if dozing then 1 else if wait = .awake then 2 else 0
  | _ => 0

/-- How much those can do who are awake before they sleep or return. -/
def callsRank (n : Nat) (state : State) : Nat :=
  ∑ id ∈ Finset.range n,
    (submitRank (holds state.mutex (.submit id)) (state.submits id) (state.base.calls id) +
      flushRank (holds state.mutex (.flush id)) (state.flushes id) (state.base.flushes id))

/-- While the sink runs, the worker comes to rest when it waits; afterwards when it exits. -/
def waitingRank (running dozing : Bool) (wait : Wait) : Nat :=
  if running then
    if dozing then 1 else if wait = .awake then 2 else 0
  else if dozing then 8 else if wait = .awake then 6 else 7

def workerRank (state : State) : Nat :=
  match state.base.worker with
  | .exited => 0
  | .top => if state.workerOwes then 4 else 3
  | .delivering batch => 5 + batch.length
  | .waiting => waitingRank state.base.sink.running (holds state.mutex .worker) state.worker

def stopRank : StopPhase → StopOwes → Nat
  | .joining, .both => 5
  | .joining, .produce => 4
  | .joining, _ => 3
  | .draining, _ => 2
  | .returned, .last => 1
  | _, _ => 0

/-- Calls that return may leave records, records wake those who wait, and so on down. -/
def rank (n : Nat) (state : State) : Nat ×ₗ Nat ×ₗ Nat ×ₗ Nat ×ₗ Nat :=
  toLex (callsLeft n state.base, toLex (state.queue.size, toLex (workerRank state,
    toLex (stopRank state.base.stop state.stopOwes, callsRank n state))))

variable {n : Nat}

theorem lower_calls (fewer : callsLeft n after.base < callsLeft n state.base) : rank n after < rank n state :=
  Prod.Lex.toLex_lt_toLex.mpr (.inl fewer)

theorem lower_queue (calls : callsLeft n after.base = callsLeft n state.base)
    (fewer : after.queue.size < state.queue.size) : rank n after < rank n state :=
  Prod.Lex.toLex_lt_toLex.mpr (.inr ⟨calls, Prod.Lex.toLex_lt_toLex.mpr (.inl fewer)⟩)

/-- The worker or `stop` goes on. -/
theorem lower_work (calls : callsLeft n after.base = callsLeft n state.base)
    (queue : after.queue.size = state.queue.size)
    (lower : workerRank after < workerRank state ∨ (workerRank after = workerRank state ∧
      stopRank after.base.stop after.stopOwes < stopRank state.base.stop state.stopOwes)) :
    rank n after < rank n state := by
  refine Prod.Lex.toLex_lt_toLex.mpr (.inr ⟨calls, Prod.Lex.toLex_lt_toLex.mpr (.inr ⟨queue, ?_⟩)⟩)
  refine Prod.Lex.toLex_lt_toLex.mpr (lower.imp_right fun ⟨worker, stop⟩ => ⟨worker, ?_⟩)
  exact Prod.Lex.toLex_lt_toLex.mpr (.inl stop)

/-- One of the calls goes on. -/
theorem lower_rank (calls : callsLeft n after.base = callsLeft n state.base)
    (queue : after.queue.size = state.queue.size) (worker : workerRank after = workerRank state)
    (stop : stopRank after.base.stop after.stopOwes = stopRank state.base.stop state.stopOwes)
    (lower : callsRank n after < callsRank n state) : rank n after < rank n state := by
  refine Prod.Lex.toLex_lt_toLex.mpr (.inr ⟨calls, Prod.Lex.toLex_lt_toLex.mpr (.inr ⟨queue, ?_⟩)⟩)
  refine Prod.Lex.toLex_lt_toLex.mpr (.inr ⟨worker, Prod.Lex.toLex_lt_toLex.mpr (.inr ⟨stop, lower⟩)⟩)

theorem sum_lower {f g : Nat → Nat} {id : Nat} (inside : id < n) (others : ∀ other, other ≠ id → f other = g other)
    (lower : f id < g id) : ∑ other ∈ Finset.range n, f other < ∑ other ∈ Finset.range n, g other := by
  refine Finset.sum_lt_sum (fun other _ => ?_) ⟨id, Finset.mem_range.mpr inside, lower⟩
  by_cases same : other = id
  · subst same
    exact lower.le
  · exact (others other same).le

/-- No call has a number from `n` on. -/
def Bounded (n : Nat) (base : Log.State) : Prop :=
  ∀ id, n ≤ id → base.calls id = .idle ∧ base.flushes id = .idle

theorem Bounded.submit_lt {base : Log.State} {id : Nat} (bounded : Bounded n base) (begun : base.calls id ≠ .idle) :
    id < n :=
  Nat.lt_of_not_le fun outside => begun (bounded id outside).1

theorem Bounded.flush_lt {base : Log.State} {id : Nat} (bounded : Bounded n base) (begun : base.flushes id ≠ .idle) :
    id < n :=
  Nat.lt_of_not_le fun outside => begun (bounded id outside).2

/-- A submit returns, with whatever comes of it. -/
theorem callsLeft_lower {base : Log.State} {id : Nat} {phase : SubmitPhase} (bounded : Bounded n state.base)
    (pending : submitLeft (state.base.calls id) = 1) (returned : submitLeft phase = 0)
    (calls : base.calls = Function.update state.base.calls id phase) (flushes : base.flushes = state.base.flushes) :
    callsLeft n base < callsLeft n state.base := by
  have inside : id < n := bounded.submit_lt (by rintro idle; simp [idle, submitLeft] at pending)
  refine sum_lower inside (fun other different => ?_) ?_
  · rw [calls, flushes, Function.update_of_ne different]
  · rw [calls, flushes, Function.update_self, returned, pending]
    omega

theorem callsLeft_same {base : Log.State} {id : Nat} {phase : SubmitPhase}
    (pending : submitLeft phase = submitLeft (state.base.calls id))
    (calls : base.calls = Function.update state.base.calls id phase) (flushes : base.flushes = state.base.flushes) :
    callsLeft n base = callsLeft n state.base := by
  refine Finset.sum_congr rfl fun other _ => ?_
  rw [calls, flushes]
  by_cases same : other = id
  · subst same
    rw [Function.update_self, pending]
  · rw [Function.update_of_ne same]

theorem workerRank_congr (base : after.base.worker = state.base.worker)
    (running : after.base.sink.running = state.base.sink.running)
    (mutex : holds after.mutex .worker = holds state.mutex .worker) (worker : after.worker = state.worker)
    (owes : after.workerOwes = state.workerOwes) : workerRank after = workerRank state := by
  unfold workerRank
  rw [base, running, mutex, worker, owes]

/-- A submit goes on, and with it nobody else. -/
theorem lower_submit {id : Nat} {phase : SubmitPhase} {mutex : Option Party} {submits : Nat → Wait}
    (bounded : Bounded n state.base) (begun : state.base.calls id ≠ .idle)
    (left : submitLeft phase = submitLeft (state.base.calls id))
    (others : ∀ party, party ≠ .submit id → holds mutex party = holds state.mutex party)
    (waits : ∀ other, other ≠ id → submits other = state.submits other)
    (lower : submitRank (holds mutex (.submit id)) (submits id) phase <
      submitRank (holds state.mutex (.submit id)) (state.submits id) (state.base.calls id)) :
    rank n ⟨state.base.enter id phase, mutex, submits, state.flushes, state.worker, state.workerOwes, state.stopOwes⟩ <
      rank n state := by
  refine lower_rank (callsLeft_same left rfl rfl) rfl ?_ rfl ?_
  · exact workerRank_congr rfl rfl (others .worker (by simp)) rfl rfl
  · refine sum_lower (bounded.submit_lt begun) (fun other different => ?_) ?_
    · have elsewhere := others (.submit other) (by simpa using different)
      have flush := others (.flush other) (by simp)
      simp only [Log.State.enter, elsewhere, flush, waits other different, Function.update_of_ne different]
    · have flush := others (.flush id) (by simp)
      simp only [Log.State.enter, flush, Function.update_self]
      exact Nat.add_lt_add_right lower _

/-- A flush goes on, but not to its end. -/
theorem lower_flush {id : Nat} {mutex : Option Party} {flushes : Nat → Wait} (bounded : Bounded n state.base)
    (begun : state.base.flushes id ≠ .idle)
    (others : ∀ party, party ≠ .flush id → holds mutex party = holds state.mutex party)
    (waits : ∀ other, other ≠ id → flushes other = state.flushes other)
    (lower : flushRank (holds mutex (.flush id)) (flushes id) (state.base.flushes id) <
      flushRank (holds state.mutex (.flush id)) (state.flushes id) (state.base.flushes id)) :
    rank n ⟨state.base, mutex, state.submits, flushes, state.worker, state.workerOwes, state.stopOwes⟩ <
      rank n state := by
  refine lower_rank rfl rfl ?_ rfl ?_
  · exact workerRank_congr rfl rfl (others .worker (by simp)) rfl rfl
  · refine sum_lower (bounded.flush_lt begun) (fun other different => ?_) ?_
    · have elsewhere := others (.flush other) (by simpa using different)
      have submit := others (.submit other) (by simp)
      simp only [elsewhere, submit, waits other different]
    · have submit := others (.submit id) (by simp)
      simp only [submit]
      exact Nat.add_lt_add_left lower _

theorem looks_pending {id : Nat} {record : LogRecord} (looks : state.looks id record) :
    submitLeft (state.base.calls id) = 1 := by
  rcases looks with was | ⟨was, -⟩
  · rw [was]
    rfl
  · rw [was]
    rfl

theorem looks_begun {id : Nat} {record : LogRecord} (looks : state.looks id record) : state.base.calls id ≠ .idle := by
  intro idle
  have pending := looks_pending looks
  rw [idle] at pending
  cases pending

theorem looks_rank {id : Nat} {record : LogRecord} (looks : state.looks id record) (free : state.mutex = none) :
    3 ≤ submitRank (holds state.mutex (.submit id)) (state.submits id) (state.base.calls id) := by
  rcases looks with was | ⟨was, awake⟩
  · simp [was, submitRank]
  · simp [was, submitRank, holds, free, awake]

/-- A notification brings the worker forward once the sink is stopped. -/
theorem workerRank_consumed (stopped : state.base.sink.running = false) :
    workerRank { state.notifyConsume with stopOwes := .produce } < workerRank state ∨
      workerRank { state.notifyConsume with stopOwes := .produce } = workerRank state := by
  unfold workerRank
  simp only [State.notifyConsume]
  cases state.base.worker with
  | waiting =>
    simp only [waitingRank, stopped]
    cases state.worker <;> cases holds state.mutex .worker <;> simp
  | _ => exact .inr rfl

theorem sleep_lowers {party : Party} (waits : InWait state.base party) (held : state.mutex = some party)
    (bounded : Bounded n state.base) : rank n (state.sleep party) < rank n state := by
  have others : ∀ other, other ≠ party → holds none other = holds state.mutex other := by
    intro other different
    simp [holds, held, different.symm]
  cases party with
  | submit id =>
    obtain ⟨record, blocked⟩ := waits
    have begun : state.base.calls id ≠ .idle := by simp [blocked]
    have entered : state.sleep (.submit id) = ⟨state.base.enter id (.blocked record), none,
        Function.update state.submits id .asleep, state.flushes, state.worker, state.workerOwes, state.stopOwes⟩ := by
      rw [enter_again blocked]
      rfl
    rw [entered]
    refine lower_submit bounded begun (by rw [blocked]) others ?_ ?_
    · exact fun _ different => Function.update_of_ne different ..
    · simp [holds, held, blocked, submitRank]
  | flush id =>
    have waiting : state.base.flushes id = .waiting := waits
    have begun : state.base.flushes id ≠ .idle := by simp [waiting]
    refine lower_flush bounded begun others (fun _ different => Function.update_of_ne different ..) ?_
    simp [holds, held, waiting, flushRank]
  | worker =>
    have waiting : state.base.worker = .waiting := waits
    refine lower_work rfl rfl (.inl ?_)
    simp only [workerRank, State.sleep, waiting, holds, held]
    cases state.base.sink.running <;> simp [waitingRank]

theorem Works.lowers (works : Works state after) (sound : Sound state) (bounded : Bounded n state.base) :
    rank n after < rank n state := by
  cases works with
  | @block id record looks free full =>
    refine lower_submit bounded (looks_begun looks) (looks_pending looks).symm ?_ (fun _ _ => rfl) ?_
    · intro party different
      simp [holds, free, different.symm]
    · refine Nat.lt_of_lt_of_le ?_ (looks_rank looks free)
      simp [submitRank, holds]
  | @inline id record looks free =>
    refine lower_submit bounded (looks_begun looks) (looks_pending looks).symm (fun _ _ => rfl) (fun _ _ => rfl) ?_
    exact Nat.lt_of_lt_of_le (by simp [submitRank]) (looks_rank looks free)
  | enqueue looks free running room => exact lower_calls (callsLeft_lower bounded (looks_pending looks) rfl rfl rfl)
  | drop was free => exact lower_calls (callsLeft_lower bounded (looks_pending (.inl was)) rfl rfl rfl)
  | deliverInline was =>
    refine lower_calls (callsLeft_lower bounded ?_ rfl rfl rfl)
    rw [was]
    rfl
  | exit ready free empty top => 
    refine lower_work rfl rfl (.inl ?_)
    simp [workerRank, top, sound.owes_nothing ready]
  | doze ready free running empty awake =>
    refine lower_work rfl rfl (.inl ?_)
    rcases ready with ⟨top, owes⟩ | waiting
    · simp [workerRank, State.doze, waitingRank, holds, running, top, owes]
    · simp [workerRank, State.doze, waitingRank, holds, running, waiting, awake waiting, free]
  | take ready free due =>
    rcases Nat.eq_zero_or_pos state.queue.size with empty | filled
    · obtain ⟨stopped, waiting⟩ := due.resolve_left (Nat.not_lt.mpr empty.le)
      rw [taken_of_empty empty]
      refine lower_work rfl rfl (.inl ?_)
      cases wait : state.worker <;> simp [workerRank, waiting, waitingRank, holds, free, stopped, wait]
    · obtain ⟨taken, fewer, -⟩ := taken_of_filled filled
      refine lower_queue ?_ fewer
      rw [taken]
      rfl
  | deliverNext delivering =>
    refine lower_work rfl rfl (.inl ?_)
    simp [workerRank, delivering]
  | settle delivering free =>
    refine lower_work rfl rfl (.inl ?_)
    simp [workerRank, delivering]
  | workerNotify owes =>
    refine lower_work rfl rfl (.inl ?_)
    simp [workerRank, sound.owing owes, owes, State.notifyProduce]
  | @pass id waiting free =>
    have begun : state.base.flushes id ≠ .idle := by simp [waiting]
    refine lower_calls (sum_lower (bounded.flush_lt begun) (fun other different => ?_) ?_)
    · simp only [Function.update_of_ne different]
    · simp [waiting, flushLeft]
  | @dozeFlush id waiting awake free busy =>
    have begun : state.base.flushes id ≠ .idle := by simp [waiting]
    refine lower_flush bounded begun ?_ (fun _ _ => rfl) ?_
    · intro party different
      simp [holds, free, different.symm]
    · simp [flushRank, holds, waiting, awake, free]
  | stopConsume owes =>
    have joining := sound.joining (.inl owes)
    have stopped := sound.controlled.stopped (by simp [joining])
    refine lower_work rfl rfl ((workerRank_consumed stopped).imp_right fun same => ⟨same, ?_⟩)
    simp [State.notifyConsume, joining, owes, stopRank]
  | stopProduce owes =>
    refine lower_work rfl rfl (.inr ⟨rfl, ?_⟩)
    rcases owes with produce | last
    · simp [State.notifyProduce, sound.joining (.inr produce), produce, stopRank]
    · simp [State.notifyProduce, sound.finishing last, last, stopRank]
  | join joining exited owes =>
    refine lower_work rfl rfl (.inr ⟨rfl, ?_⟩)
    simp [joining, owes, stopRank]
  | finish draining =>
    refine lower_work rfl rfl (.inr ⟨rfl, ?_⟩)
    simp [draining, stopRank]
  | sleep held => exact sleep_lowers (sound.held _ held) held bounded

theorem enter_idle {base : Log.State} {id other : Nat} (phase : SubmitPhase) (begun : base.calls id ≠ .idle)
    (idle : base.calls other = .idle) : (base.enter id phase).calls other = .idle := by
  have different : other ≠ id := by
    rintro rfl
    exact begun idle
  exact (Function.update_of_ne different ..).trans idle

/-- Nobody begins a call for another. -/
theorem Works.bounded (works : Works state after) (bounded : Bounded n state.base) : Bounded n after.base := by
  intro other outside
  obtain ⟨idle, idleFlush⟩ := bounded other outside
  cases works with
  | block looks free full => exact ⟨enter_idle _ (looks_begun looks) idle, idleFlush⟩
  | inline looks free => exact ⟨enter_idle _ (looks_begun looks) idle, idleFlush⟩
  | enqueue looks free running room => exact ⟨enter_idle _ (looks_begun looks) idle, idleFlush⟩
  | drop was free => exact ⟨enter_idle _ (looks_begun (.inl was)) idle, idleFlush⟩
  | @deliverInline id record was =>
    have begun : state.base.calls id ≠ .idle := by simp [was]
    exact ⟨enter_idle _ begun idle, idleFlush⟩
  | take ready free due =>
    rw [taken_calls, taken_flushes]
    exact ⟨idle, idleFlush⟩
  | @pass id waiting free =>
    have different : other ≠ id := by
      rintro rfl
      rw [waiting] at idleFlush
      cases idleFlush
    exact ⟨idle, (Function.update_of_ne different ..).trans idleFlush⟩
  | sleep held =>
    rw [sleep_base]
    exact ⟨idle, idleFlush⟩
  | _ => exact ⟨idle, idleFlush⟩

theorem Moves.bounded (moves : Moves state after) (bounded : Bounded n state.base) : ∃ m, Bounded m after.base := by
  cases moves with
  | works works => exact ⟨n, works.bounded bounded⟩
  | @call id record idle =>
    refine ⟨max n (id + 1), fun other outside => ?_⟩
    have different : other ≠ id := by omega
    obtain ⟨idle, idleFlush⟩ := bounded other (by omega)
    exact ⟨(Function.update_of_ne different ..).trans idle, idleFlush⟩
  | @flush id idle =>
    refine ⟨max n (id + 1), fun other outside => ?_⟩
    have different : other ≠ id := by omega
    obtain ⟨idle, idleFlush⟩ := bounded other (by omega)
    exact ⟨idle, (Function.update_of_ne different ..).trans idleFlush⟩
  | exchange idle running => exact ⟨n, bounded⟩
  | timeout waiting free =>
    refine ⟨n, fun other outside => ?_⟩
    rw [taken_calls, taken_flushes]
    exact bounded other outside
  | rouse party =>
    rw [rouse_base]
    exact ⟨n, bounded⟩

end Rank

/-- Every call that has begun has returned. -/
structure AllReturned (state : State) : Prop where
  submits : ∀ id, state.base.calls id = .idle ∨ (state.base.calls id).Returned
  flushes : ∀ id, state.base.flushes id = .idle ∨ state.base.flushes id = .passed
  stop : state.base.stop = .idle ∨ (state.base.stop = .returned ∧ state.stopOwes = .nothing)

/-- No step is left that needs nothing new. -/
def Stuck (state : State) : Prop := ∀ act, act.inner state = true → step state act = none

namespace Stuck

theorem free (stuck : Stuck state) : state.mutex = none := by
  simpa [step] using stuck .sleep rfl

theorem submits (stuck : Stuck state) (sound : Sound state) (id : Nat) :
    state.base.calls id = .idle ∨ (state.base.calls id).Returned ∨ state.queue.size = state.queue.capacity := by
  cases was : state.base.calls id with
  | idle => exact .inl rfl
  | returned record => exact .inr (.inl ⟨record, rfl⟩)
  | entering record =>
    have none := stuck (.lock id) rfl
    simp only [step, stuck.free, if_true, State.follow, Option.map_eq_none_iff, Log.step, was] at none
    split at none
    · cases none
    · split at none
      · split at none <;> cases none
      · cases none
  | inline record =>
    have none := stuck (.deliverInline id) rfl
    simp [step, State.follow, Log.step, was] at none
  | blocked record =>
    cases wait : state.submits id with
    | asleep => exact .inr (.inr (sound.submits id record was wait))
    | awake =>
      have none := stuck (.wake id) rfl
      simp only [step, stuck.free, wait, and_self, if_true, State.follow, Option.map_eq_none_iff, Log.step, was] at none
      split at none
      · split at none <;> cases none
      · cases none

theorem owes_nothing (stuck : Stuck state) : state.workerOwes = false := by
  have none := stuck .workerNotify rfl
  simpa [step] using none

/-- The worker has nothing left to do: it waits for records, or it is gone. -/
theorem worker (stuck : Stuck state) (sound : Sound state) :
    state.queue.size = 0 ∧ ((state.base.worker = .waiting ∧ state.base.sink.running = true) ∨
      state.base.worker = .exited) := by
  cases phase : state.base.worker with
  | exited => exact ⟨(sound.controlled.exited phase).2, .inr rfl⟩
  | top =>
    have none := stuck .work rfl
    simp only [step, stuck.free, stuck.owes_nothing, and_self, if_true, State.follow, Option.map_eq_none_iff, Log.step,
      phase] at none
    split at none
    · cases none
    · split at none <;> cases none
  | delivering batch =>
    cases batch with
    | nil =>
      have none := stuck .settle rfl
      simp [step, stuck.free, State.follow, Log.step, phase] at none
    | cons submission rest =>
      have none := stuck .deliverNext rfl
      simp [step, State.follow, Log.step, phase] at none
  | waiting =>
    cases wait : state.worker with
    | awake =>
      have none := stuck .resume rfl
      simp only [step, stuck.free, wait, and_self, if_true, phase] at none
      split at none
      · simp [State.follow, Log.step, phase] at none
      · cases none
    | asleep =>
      refine ⟨sound.worker phase wait, .inl ⟨rfl, ?_⟩⟩
      -- the time runs out when nobody else would wake it
      by_contra stopped
      have none := stuck .timeout (by simpa [Act.inner] using stopped)
      simp [step, stuck.free, wait, State.follow, Log.step, phase] at none

theorem flushes (stuck : Stuck state) (sound : Sound state) (id : Nat) :
    state.base.flushes id = .idle ∨ state.base.flushes id = .passed := by
  obtain ⟨empty, rest⟩ := stuck.worker sound
  cases was : state.base.flushes id with
  | idle => exact .inl rfl
  | passed => exact .inr rfl
  | waiting =>
    cases wait : state.flushes id with
    | awake =>
      have none := stuck (.pass id) rfl
      simp only [step, stuck.free, wait, and_self, if_true, was] at none
      split at none
      · rename_i done
        have settled : state.base.sink.queue.size = 0 ∧ state.base.sink.inflight = 0 := done
        simp [State.follow, Log.step, was, settled] at none
      · cases none
    | asleep =>
      rcases sound.flushes id was wait with filled | busy | owes
      · exact absurd empty filled
      · obtain ⟨batch, delivering⟩ := sound.busy busy
        rcases rest with ⟨waiting, -⟩ | exited
        · rw [waiting] at delivering
          cases delivering
        · rw [exited] at delivering
          cases delivering
      · rw [stuck.owes_nothing] at owes
        cases owes

theorem stop (stuck : Stuck state) (sound : Sound state) :
    state.base.stop = .idle ∨ (state.base.stop = .returned ∧ state.stopOwes = .nothing) := by
  obtain ⟨empty, rest⟩ := stuck.worker sound
  have owes : state.stopOwes = .nothing := by
    have none := stuck .stopNotify rfl
    cases owes : state.stopOwes with
    | nothing => rfl
    | _ => simp [step, owes] at none
  rcases rest with ⟨-, running⟩ | exited
  · exact .inl (sound.controlled.running.mp running)
  · cases phase : state.base.stop with
    | idle => exact .inl rfl
    | returned => exact .inr ⟨rfl, owes⟩
    | joining =>
      have none := stuck .join rfl
      simp [step, owes, State.follow, Log.step, phase, exited] at none
    | draining =>
      have none := stuck .drain rfl
      simp only [step, stuck.free, if_true, State.follow, Option.map_eq_none_iff, Log.step, phase] at none
      split at none <;> cases none
    | delivering submission => exact absurd phase (sound.controlled.emptyHanded submission)

theorem allReturned (stuck : Stuck state) (sound : Sound state) : AllReturned state where
  submits := by
    intro id
    rcases stuck.submits sound id with idle | returned | full
    · exact .inl idle
    · exact .inr returned
    · have positive := sound.controlled.formed.positive
      have empty := (stuck.worker sound).1
      exact absurd (full.symm.trans empty) (Nat.pos_iff_ne_zero.mp positive)
  flushes := stuck.flushes sound
  stop := stuck.stop sound

end Stuck

/-- With the worker at rest no record is on its way. -/
theorem Stuck.settled (stuck : Stuck state) (sound : Sound state) (accounted : Accounted state.base) {id : Nat}
    {record : LogRecord} (returned : state.base.calls id = .returned record) :
    state.base.delivered.count ⟨id, record⟩ + state.base.dropped.count ⟨id, record⟩ = 1 := by
  obtain ⟨empty, rest⟩ := stuck.worker sound
  refine accounted.settled empty (sound.controlled.taken_eq_nil ?_) returned
  rcases rest with ⟨waiting, -⟩ | exited
  · exact .inl (sound.nothing_inflight (.inr waiting))
  · exact .inr exited

theorem step_accounted (sound : Sound state) (accounted : Accounted state.base) (moved : step state act = some after) :
    Accounted after.base := by
  rcases step_refines moved with same | ⟨coarser, stepped⟩
  · rwa [same]
  · exact (Log.step_moves stepped).accounted sound.controlled.formed accounted

structure Reached (state : State) : Prop where
  sound : Sound state
  accounted : Accounted state.base
  bounded : ∃ n, Bounded n state.base

theorem run_reached {sinks : List Level} {capacity : Nat} {policy : OverflowPolicy} {acts : List Act}
    (reached : Interleaving.run step (.new sinks capacity policy) acts = some state) : Reached state := by
  refine Interleaving.run_keeps Reached ?_ ?_ reached
  · rintro state after act ⟨sound, accounted, n, bounded⟩ moved
    exact ⟨step_sound sound moved, step_accounted sound accounted moved,
      (step_moves sound.controlled moved).bounded bounded⟩
  · exact ⟨new_waits_sound sinks capacity policy, new_accounted _ _ _, 0, fun _ _ => ⟨rfl, rfl⟩⟩

theorem waiting_calls_return {sinks : List Level} {capacity : Nat} {policy : OverflowPolicy} {acts : List Act}
    {state : State} (reached : Interleaving.run step (.new sinks capacity policy) acts = some state) :
    (∀ (states : Nat → State) (later : Nat → Act), states 0 = state →
        ¬∀ k, (later k).inner (states k) = true ∧ step (states k) (later k) = some (states (k + 1))) ∧
      (Stuck state → AllReturned state ∧ ∀ id record, state.base.calls id = .returned record →
        state.base.delivered.count ⟨id, record⟩ + state.base.dropped.count ⟨id, record⟩ = 1) := by
  obtain ⟨sound, accounted, n, bounded⟩ := run_reached reached
  refine ⟨fun states later begins => ?_, fun stuck => ⟨stuck.allReturned sound, fun id record returned => ?_⟩⟩
  · refine Interleaving.no_endless_run (rank n) (fun state => Sound state ∧ Bounded n state.base)
      (fun state (act : Act) => act.inner state = true) ?_ ?_ ?_
    · rintro state after act ⟨sound, bounded⟩ inner moved
      exact ⟨step_sound sound moved, (step_works sound.controlled inner moved).bounded bounded⟩
    · rintro state after act ⟨sound, bounded⟩ inner moved
      exact (step_works sound.controlled inner moved).lowers sound bounded
    · rw [begins]
      exact ⟨sound, bounded⟩
  · exact stuck.settled sound accounted returned

/-- `stop` notifies the worker just before it sleeps. -/
theorem waiting_calls_return_lost_notification :
    ∃ state, Interleaving.run step (.new [] 1 .block) [.work, .exchange, .stopNotify, .stopNotify, .sleep] =
        some state ∧
      state.base.stop = .joining ∧ state.worker = .asleep ∧
      (∀ (states : Nat → State) (later : Nat → Act), states 0 = state →
        ¬∀ k, (later k).inner (states k) = true ∧ step (states k) (later k) = some (states (k + 1))) ∧
      ¬Stuck state := by
  obtain ⟨state, reached, joining, asleep⟩ : ∃ state, Interleaving.run step (.new [] 1 .block)
      [.work, .exchange, .stopNotify, .stopNotify, .sleep] = some state ∧
      state.base.stop = .joining ∧ state.worker = .asleep := ⟨_, rfl, rfl, rfl⟩
  obtain ⟨ends, returned⟩ := waiting_calls_return reached
  refine ⟨state, reached, joining, asleep, ends, fun stuck => ?_⟩
  rcases (returned stuck).1.stop with idle | ⟨done, -⟩
  · rw [joining] at idle
    cases idle
  · rw [joining] at done
    cases done

end Waits

end Log

end Enigma
