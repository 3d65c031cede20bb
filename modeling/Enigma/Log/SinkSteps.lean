import Enigma.Log.AsyncSink

/-! What a step of the asynchronous sink can do, and what all of them keep: the ring is
in order, a batch that is being delivered is counted, and nothing is left to drain once
the worker has been joined. -/

namespace Enigma

namespace Log

def SubmitPhase.Returned (phase : SubmitPhase) : Prop := ∃ record, phase = .returned record

/-- The steps by what they change. -/
inductive Moves (state : State) : State → Prop where
  | enter (id : Nat) (phase : SubmitPhase) (pending : ¬(state.calls id).Returned) (still : ¬phase.Returned) :
    Moves state (state.enter id phase)
  | enqueue (id : Nat) (record : LogRecord) (pending : ¬(state.calls id).Returned) (running : state.sink.running = true)
    (room : state.sink.queue.size ≠ state.sink.queue.capacity) : Moves state (state.enqueue id record)
  | drop (id : Nat) (record : LogRecord) (pending : ¬(state.calls id).Returned) (running : state.sink.running = true)
    (full : state.sink.queue.size = state.sink.queue.capacity) (drops : shouldBlock state.sink.policy record = false) :
    Moves state (state.drop id record)
  | deliverInline (id : Nat) (record : LogRecord) (pending : ¬(state.calls id).Returned) :
    Moves state ((state.deliver ⟨id, record⟩).enter id (.returned record))
  | stay : Moves state state
  | exit (top : state.worker = .top) (stopped : state.sink.running = false) (empty : state.sink.queue.size = 0) :
    Moves state { state with worker := .exited }
  | sleep (top : state.worker = .top) : Moves state { state with worker := .waiting }
  | take (ready : state.worker = .top ∨ state.worker = .waiting) : Moves state state.take
  | deliverNext (submission : Submission) (rest : List Submission)
    (delivering : state.worker = .delivering (submission :: rest)) :
    Moves state { state.deliver submission with worker := .delivering rest }
  | settle (delivered : state.worker = .delivering []) :
    Moves state { state with sink := { state.sink with inflight := 0 }, worker := .top }
  | flush (id : Nat) (phase : FlushPhase) : Moves state { state with flushes := Function.update state.flushes id phase }
  | exchange (idle : state.stop = .idle) :
    Moves state { state with sink := { state.sink with running := false }, stop := .joining }
  | again (idle : state.stop = .idle) (stopped : state.sink.running = false) :
    Moves state { state with stop := .returned }
  | join (joining : state.stop = .joining) (exited : state.worker = .exited) :
    Moves state { state with stop := .draining }
  | finish (draining : state.stop = .draining) : Moves state { state with stop := .returned }
  | drain (draining : state.stop = .draining) (filled : state.sink.queue.size ≠ 0) :
    Moves state { state with
      sink := { state.sink with queue := state.sink.queue.pop }
      stop := .delivering state.sink.queue.front }
  | deliverDrained (submission : Submission) (delivering : state.stop = .delivering submission) :
    Moves state { state.deliver submission with stop := .draining }

variable {state after : State} {act : Act}

theorem call_moves {id : Nat} {record : LogRecord} (moved : step state (.call id record) = some after) :
    Moves state after := by
  cases phase : state.calls id with
  | idle =>
    simp only [step, phase, Option.some.injEq] at moved
    subst moved
    exact .enter id (.entering record) (by simp [phase, SubmitPhase.Returned]) (by simp [SubmitPhase.Returned])
  | _ => simp [step, phase] at moved

theorem lock_moves {id : Nat} (moved : step state (.lock id) = some after) : Moves state after := by
  cases phase : state.calls id with
  | entering record =>
    have pending : ¬(state.calls id).Returned := by simp [phase, SubmitPhase.Returned]
    simp only [step, phase] at moved
    by_cases stopped : state.sink.running = false
    · rw [if_pos stopped, Option.some.injEq] at moved
      subst moved
      exact .enter id (.inline record) pending (by simp [SubmitPhase.Returned])
    · have running := Bool.of_not_eq_false stopped
      rw [if_neg stopped] at moved
      by_cases full : state.sink.queue.size = state.sink.queue.capacity
      · rw [if_pos full] at moved
        cases blocks : shouldBlock state.sink.policy record with
        | true =>
          rw [blocks, if_pos rfl, Option.some.injEq] at moved
          subst moved
          exact .enter id (.blocked record) pending (by simp [SubmitPhase.Returned])
        | false =>
          rw [blocks, if_neg Bool.false_ne_true, Option.some.injEq] at moved
          subst moved
          exact .drop id record pending running full blocks
      · rw [if_neg full, Option.some.injEq] at moved
        subst moved
        exact .enqueue id record pending running full
  | _ => simp [step, phase] at moved

theorem wake_moves {id : Nat} (moved : step state (.wake id) = some after) : Moves state after := by
  cases phase : state.calls id with
  | blocked record =>
    have pending : ¬(state.calls id).Returned := by simp [phase, SubmitPhase.Returned]
    simp only [step, phase] at moved
    split at moved
    · split at moved
      · cases moved
        exact .enter id (.inline record) pending (by simp [SubmitPhase.Returned])
      · rename_i otherwise
        cases moved
        obtain ⟨room, stopped⟩ := not_or.mp otherwise
        exact .enqueue id record pending (Bool.of_not_eq_false stopped) room
    · cases moved
      exact .stay
  | _ => simp [step, phase] at moved

theorem work_moves (moved : step state .work = some after) : Moves state after := by
  cases phase : state.worker with
  | top =>
    simp only [step, phase] at moved
    split at moved
    · rename_i done
      cases moved
      exact .exit phase done.1 done.2
    · split at moved
      · cases moved
        exact .take (.inl phase)
      · cases moved
        exact .sleep phase
  | _ => simp [step, phase] at moved

theorem deliverNext_moves (moved : step state .deliverNext = some after) : Moves state after := by
  cases phase : state.worker with
  | delivering batch =>
    cases batch with
    | nil => simp [step, phase] at moved
    | cons submission rest =>
      simp only [step, phase, Option.some.injEq] at moved
      subst moved
      exact .deliverNext submission rest phase
  | _ => simp [step, phase] at moved

theorem settle_moves (moved : step state .settle = some after) : Moves state after := by
  cases phase : state.worker with
  | delivering batch =>
    cases batch with
    | nil =>
      simp only [step, phase, Option.some.injEq] at moved
      subst moved
      exact .settle phase
    | cons submission rest => simp [step, phase] at moved
  | _ => simp [step, phase] at moved

theorem drain_moves (moved : step state .drain = some after) : Moves state after := by
  cases phase : state.stop with
  | draining =>
    simp only [step, phase] at moved
    split at moved
    · cases moved
      exact .finish phase
    · cases moved
      exact .drain phase ‹_›
  | _ => simp [step, phase] at moved

theorem exchange_moves (moved : step state .exchange = some after) : Moves state after := by
  cases phase : state.stop with
  | idle =>
    simp only [step, phase] at moved
    split at moved
    · cases moved
      exact .exchange phase
    · rename_i stopped
      cases moved
      exact .again phase (Bool.of_not_eq_true stopped)
  | _ => simp [step, phase] at moved

theorem step_moves (moved : step state act = some after) : Moves state after := by
  cases act with
  | call id record => exact call_moves moved
  | lock id => exact lock_moves moved
  | wake id => exact wake_moves moved
  | deliverInline id =>
    cases phase : state.calls id with
    | inline record =>
      simp only [step, phase, Option.some.injEq] at moved
      subst moved
      exact .deliverInline id record (by simp [phase, SubmitPhase.Returned])
    | _ => simp [step, phase] at moved
  | work => exact work_moves moved
  | resume =>
    cases phase : state.worker with
    | waiting =>
      simp only [step, phase, Option.some.injEq] at moved
      subst moved
      exact .take (.inr phase)
    | _ => simp [step, phase] at moved
  | deliverNext => exact deliverNext_moves moved
  | settle => exact settle_moves moved
  | flush id =>
    cases phase : state.flushes id with
    | idle =>
      simp only [step, phase, Option.some.injEq] at moved
      subst moved
      exact .flush id .waiting
    | _ => simp [step, phase] at moved
  | pass id =>
    cases phase : state.flushes id with
    | waiting =>
      simp only [step, phase] at moved
      split at moved
      · cases moved
        exact .flush id .passed
      · cases moved
    | _ => simp [step, phase] at moved
  | exchange => exact exchange_moves moved
  | join =>
    cases phase : state.stop with
    | joining =>
      cases ended : state.worker with
      | exited =>
        simp only [step, phase, ended, Option.some.injEq] at moved
        subst moved
        have joined := Moves.join phase ended
        rwa [ended] at joined
      | _ => simp [step, phase, ended] at moved
    | _ => simp [step, phase] at moved
  | drain => exact drain_moves moved
  | deliverDrained =>
    cases phase : state.stop with
    | delivering submission =>
      simp only [step, phase, Option.some.injEq] at moved
      subst moved
      exact .deliverDrained submission phase
    | _ => simp [step, phase] at moved

theorem takeBatch_spec {queue : RingBuffer Submission} (formed : queue.WellFormed) (room : Nat) :
    queue.contents = (takeBatch room queue).1 ++ (takeBatch room queue).2.contents ∧
      (takeBatch room queue).2.WellFormed := by
  induction room generalizing queue with
  | zero => exact ⟨rfl, formed⟩
  | succ room ih =>
    unfold takeBatch
    split
    · rename_i filled
      obtain ⟨split, rest⟩ := ih (formed.pop filled)
      refine ⟨?_, rest⟩
      rw [formed.contents_pop filled, split]
      rfl
    · exact ⟨rfl, formed⟩

theorem takeBatch_capacity (room : Nat) (queue : RingBuffer Submission) :
    (takeBatch room queue).2.capacity = queue.capacity := by
  induction room generalizing queue with
  | zero => rfl
  | succ room ih =>
    unfold takeBatch
    split
    · exact ih queue.pop
    · rfl

/-- What holds between any two steps, whoever takes them. -/
structure Controlled (state : State) : Prop where
  formed : state.sink.queue.WellFormed
  inflight : ∀ batch, state.worker = .delivering batch → batch.length ≤ state.sink.inflight
  running : state.sink.running = true ↔ state.stop = .idle
  exited : state.worker = .exited → state.stop ≠ .idle ∧ state.sink.queue.size = 0
  joined : state.stop = .idle ∨ state.stop = .joining ∨ state.worker = .exited
  emptyHanded : ∀ submission, state.stop ≠ .delivering submission

theorem new_controlled (sinks : List Level) (capacity : Nat) (policy : OverflowPolicy) :
    Controlled (.new sinks capacity policy) where
  formed := by
    apply RingBuffer.new_wellFormed
    split
    · decide
    · omega
  inflight := by simp [State.new]
  running := by simp [State.new, AsyncSink.new]
  exited := by simp [State.new]
  joined := .inl rfl
  emptyHanded := by simp [State.new]

theorem Controlled.before_join (controlled : Controlled state) (active : state.worker ≠ .exited) :
    state.stop = .idle ∨ state.stop = .joining := by
  rcases controlled.joined with idle | joining | gone
  · exact .inl idle
  · exact .inr joining
  · exact absurd gone active

theorem Controlled.stopped (controlled : Controlled state) (begun : state.stop ≠ .idle) : state.sink.running = false :=
  Bool.of_not_eq_true fun running => begun (controlled.running.mp running)

/-- Once it has joined the worker, `stop` finds nothing left. -/
theorem Controlled.after_join (controlled : Controlled state) (further : state.stop ≠ .idle ∧ state.stop ≠ .joining) :
    state.worker = .exited ∧ state.sink.queue.size = 0 := by
  rcases controlled.joined with idle | joining | gone
  · exact absurd idle further.1
  · exact absurd joining further.2
  · exact ⟨gone, (controlled.exited gone).2⟩

/-- The worker goes on to a phase that is not its last. -/
theorem Controlled.worker {sink : AsyncSink} {phase : WorkerPhase} (controlled : Controlled state)
    (active : state.worker ≠ .exited) (formed : sink.queue.WellFormed) (running : sink.running = state.sink.running)
    (inflight : ∀ batch, phase = .delivering batch → batch.length ≤ sink.inflight) (going : phase ≠ .exited)
    (calls : Nat → SubmitPhase) (flushes : Nat → FlushPhase) (delivered dropped : List Submission) :
    Controlled ⟨sink, calls, phase, flushes, state.stop, delivered, dropped⟩ where
  formed := formed
  inflight := inflight
  running := running.symm ▸ controlled.running
  exited := fun gone => absurd gone going
  joined := (controlled.before_join active).imp_right .inl
  emptyHanded := controlled.emptyHanded

/-- `stop` goes on after its exchange, with nothing in its hand. -/
theorem Controlled.stopping {sink : AsyncSink} {phase : StopPhase} (controlled : Controlled state)
    (queue : sink.queue = state.sink.queue) (inflight : sink.inflight = state.sink.inflight)
    (stopped : sink.running = false) (begun : phase ≠ .idle) (joined : phase = .joining ∨ state.worker = .exited)
    (emptyHanded : ∀ submission, phase ≠ .delivering submission) :
    Controlled { state with sink := sink, stop := phase } where
  formed := queue.symm ▸ controlled.formed
  inflight := inflight.symm ▸ controlled.inflight
  running := iff_of_false (by simp [stopped]) begun
  exited := fun gone => ⟨begun, queue.symm ▸ (controlled.exited gone).2⟩
  joined := .inr joined
  emptyHanded := emptyHanded

theorem Moves.controlled (moves : Moves state after) (controlled : Controlled state) : Controlled after := by
  cases moves with
  | enter id phase => exact ⟨controlled.1, controlled.2, controlled.3, controlled.4, controlled.5, controlled.6⟩
  | enqueue id record pending active room =>
    have space : state.sink.queue.size < state.sink.queue.capacity := lt_of_le_of_ne controlled.formed.size room
    refine ⟨controlled.formed.push space _, controlled.2, controlled.3, ?_, controlled.5, controlled.6⟩
    intro gone
    exact absurd (controlled.running.mp active) (controlled.exited gone).1
  | drop id record => exact ⟨controlled.1, controlled.2, controlled.3, controlled.4, controlled.5, controlled.6⟩
  | deliverInline id record =>
    exact ⟨controlled.1, controlled.2, controlled.3, controlled.4, controlled.5, controlled.6⟩
  | stay => exact controlled
  | exit top stopped empty =>
    refine ⟨controlled.1, by simp, controlled.3, ?_, .inr (.inr rfl), controlled.6⟩
    intro _
    refine ⟨fun idle => ?_, empty⟩
    rw [controlled.running.mpr idle] at stopped
    cases stopped
  | sleep top =>
    refine controlled.worker ?_ controlled.formed rfl ?_ ?_ _ _ _ _
    · simp [top]
    · simp
    · simp
  | take ready =>
    refine controlled.worker ?_ ?_ ?_ ?_ ?_ _ _ _ _
    · rcases ready with top | waiting
      · simp [top]
      · simp [waiting]
    · exact (takeBatch_spec controlled.formed 256).2
    · rfl
    · intro batch delivering
      cases delivering
      exact Nat.le_refl _
    · simp
  | deliverNext submission rest delivering =>
    refine controlled.worker ?_ ?_ ?_ ?_ ?_ _ _ _ _
    · simp [delivering]
    · exact controlled.formed
    · rfl
    · intro batch same
      cases same
      exact (Nat.le_succ _).trans (controlled.inflight _ delivering)
    · simp
  | settle delivered =>
    refine controlled.worker ?_ ?_ ?_ ?_ ?_ _ _ _ _
    · simp [delivered]
    · exact controlled.formed
    · rfl
    · simp
    · simp
  | flush id phase => exact ⟨controlled.1, controlled.2, controlled.3, controlled.4, controlled.5, controlled.6⟩
  | exchange idle => exact controlled.stopping rfl rfl rfl (by simp) (.inl rfl) (by simp)
  | again idle stopped =>
    rw [controlled.running.mpr idle] at stopped
    cases stopped
  | join joining gone =>
    exact controlled.stopping rfl rfl (controlled.stopped (by simp [joining])) (by simp) (.inr gone) (by simp)
  | finish draining =>
    have gone := (controlled.after_join (by simp [draining])).1
    exact controlled.stopping rfl rfl (controlled.stopped (by simp [draining])) (by simp) (.inr gone) (by simp)
  | drain draining filled =>
    exact absurd (controlled.after_join (by simp [draining])).2 filled
  | deliverDrained submission delivering => exact absurd delivering (controlled.emptyHanded submission)

end Log

end Enigma
