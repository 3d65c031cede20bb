import Enigma.Log.SinkWaits

/-! Whoever sleeps at the asynchronous sink is due a notification that somebody is still
to send. -/

namespace Enigma

namespace Log

namespace Waits

/-- Who has the mutex has looked in vain, and under the mutex that does not change. -/
def LookedInVain (queue : RingBuffer Submission) (inflight : Nat) : Party → Prop
  | .submit _ => queue.size = queue.capacity
  | .flush _ => queue.size ≠ 0 ∨ inflight ≠ 0
  | .worker => queue.size = 0

def InWait (base : Log.State) : Party → Prop
  | .submit id => ∃ record, base.calls id = .blocked record
  | .flush id => base.flushes id = .waiting
  | .worker => base.worker = .waiting

structure Sound (state : State) : Prop where
  controlled : Controlled state.base
  busy : state.base.sink.inflight ≠ 0 → ∃ batch, state.base.worker = .delivering batch
  owing : state.workerOwes = true → state.base.worker = .top
  holder : ∀ party, state.mutex = some party → LookedInVain state.queue state.base.sink.inflight party
  held : ∀ party, state.mutex = some party → InWait state.base party
  submits : ∀ id record, state.base.calls id = .blocked record → state.submits id = .asleep →
    state.queue.size = state.queue.capacity
  flushes : ∀ id, state.base.flushes id = .waiting → state.flushes id = .asleep →
    state.queue.size ≠ 0 ∨ state.base.sink.inflight ≠ 0 ∨ state.workerOwes = true
  worker : state.base.worker = .waiting → state.worker = .asleep → state.queue.size = 0
  joining : state.stopOwes = .both ∨ state.stopOwes = .produce → state.base.stop = .joining
  finishing : state.stopOwes = .last → state.base.stop = .returned

variable {state after : State} {act : Act}

theorem new_waits_sound (sinks : List Level) (capacity : Nat) (policy : OverflowPolicy) :
    Sound (.new sinks capacity policy) where
  controlled := new_controlled sinks capacity policy
  busy := by simp [State.new, Log.State.new, AsyncSink.new]
  owing := by simp [State.new]
  holder := by simp [State.new]
  held := by simp [State.new]
  submits := by simp [State.new, Log.State.new]
  flushes := by simp [State.new, Log.State.new]
  worker := by simp [State.new, Log.State.new]
  joining := by simp [State.new]
  finishing := by simp [State.new]

/-- Nothing changes that anybody waits for. -/
theorem Sound.frame {base : Log.State} (sound : Sound state) (controlled : Controlled base)
    (queue : base.sink.queue = state.base.sink.queue) (inflight : base.sink.inflight = state.base.sink.inflight)
    (worker : base.worker = state.base.worker) (stop : base.stop = state.base.stop)
    (calls : ∀ id record, base.calls id = .blocked record → state.base.calls id = .blocked record)
    (flushes : ∀ id, base.flushes id = .waiting → state.base.flushes id = .waiting)
    (held : ∀ party, state.mutex = some party → InWait base party) :
    Sound { state with base := base } where
  controlled := controlled
  busy := by
    rw [inflight, worker]
    exact sound.busy
  owing := by
    rw [worker]
    exact sound.owing
  holder := by
    simp only [State.queue, queue, inflight]
    exact sound.holder
  held := held
  submits := by
    intro id record blocked asleep
    simp only [State.queue, queue]
    exact sound.submits id record (calls id record blocked) asleep
  flushes := by
    intro id waiting asleep
    simp only [State.queue, queue, inflight]
    exact sound.flushes id (flushes id waiting) asleep
  worker := by
    simp only [State.queue, queue, worker]
    exact sound.worker
  joining := by
    rw [stop]
    exact sound.joining
  finishing := by
    rw [stop]
    exact sound.finishing

theorem blocked_of_entered {base : Log.State} {id other : Nat} {phase : SubmitPhase} {record : LogRecord}
    (blocked : (base.enter id phase).calls other = .blocked record) (waits : ∀ record, phase ≠ .blocked record) :
    base.calls other = .blocked record := by
  by_cases same : other = id
  · subst same
    exact absurd ((Function.update_self ..).symm.trans blocked) (waits record)
  · exact (Function.update_of_ne same ..).symm.trans blocked

theorem InWait.entered {base : Log.State} {id : Nat} {phase : SubmitPhase} {party : Party} (waits : InWait base party)
    (other : ∀ record, base.calls id ≠ .blocked record) : InWait (base.enter id phase) party := by
  cases party with
  | submit waiter =>
    obtain ⟨record, blocked⟩ := waits
    have different : waiter ≠ id := by
      rintro rfl
      exact other record blocked
    exact ⟨record, (Function.update_of_ne different ..).trans blocked⟩
  | flush _ => exact waits
  | worker => exact waits

/-- Somebody else goes on: the worker, or `stop`. -/
theorem InWait.working {base : Log.State} {sink : AsyncSink} {phase : WorkerPhase} {stop : StopPhase}
    {delivered dropped : List Submission} {party : Party} (waits : InWait base party)
    (worker : base.worker = .waiting → phase = .waiting) :
    InWait ⟨sink, base.calls, phase, base.flushes, stop, delivered, dropped⟩ party := by
  cases party with
  | submit _ => exact waits
  | flush _ => exact waits
  | worker => exact worker waits

theorem waiting_of_passed {flushes : Nat → FlushPhase} {id other : Nat}
    (waiting : Function.update flushes id .passed other = .waiting) : flushes other = .waiting := by
  by_cases same : other = id
  · subst same
    rw [Function.update_self] at waiting
    cases waiting
  · rwa [Function.update_of_ne same] at waiting

theorem takeBatch_size_le (room : Nat) (queue : RingBuffer Submission) :
    (takeBatch room queue).2.size ≤ queue.size := by
  induction room generalizing queue with
  | zero => exact Nat.le_refl _
  | succ room ih =>
    unfold takeBatch
    split
    · exact (ih queue.pop).trans (Nat.sub_le _ _)
    · exact Nat.le_refl _

theorem takeBatch_of_empty {queue : RingBuffer Submission} (room : Nat) (empty : queue.size = 0) :
    takeBatch room queue = ([], queue) := by
  cases room with
  | zero => rfl
  | succ room =>
    rw [takeBatch, if_neg]
    omega

theorem takeBatch_of_filled {queue : RingBuffer Submission} (room : Nat) (positive : 0 < room)
    (filled : 0 < queue.size) :
    ∃ rest, (takeBatch room queue).1 = queue.front :: rest ∧ (takeBatch room queue).2.size < queue.size := by
  cases room with
  | zero => exact absurd positive (Nat.lt_irrefl 0)
  | succ room =>
    rw [takeBatch, if_pos filled]
    refine ⟨_, rfl, Nat.lt_of_le_of_lt (takeBatch_size_le room queue.pop) ?_⟩
    exact Nat.sub_lt filled Nat.one_pos

theorem take_sink (base : Log.State) : base.take.sink =
    { base.sink with
      queue := (takeBatch 256 base.sink.queue).2
      inflight := (takeBatch 256 base.sink.queue).1.length } := by
  unfold Log.State.take
  rfl

/-- The worker has found nothing and nothing changes but its phase. -/
theorem taken_of_empty (empty : state.queue.size = 0) : state.taken = { state with
    base := { state.base with sink := { state.base.sink with inflight := 0 }, worker := .delivering [] } } := by
  unfold State.taken Log.State.take
  rw [show takeBatch 256 state.queue = ([], state.queue) from takeBatch_of_empty 256 empty,
    show takeBatch 256 state.base.sink.queue = ([], state.queue) from takeBatch_of_empty 256 empty]
  rfl

/-- The worker has found something, and everybody hears of it. -/
theorem taken_of_filled (filled : 0 < state.queue.size) :
    state.taken = ({ state with base := state.base.take } : State).notifyProduce ∧
      state.taken.queue.size < state.queue.size ∧ 0 < state.taken.base.sink.inflight := by
  obtain ⟨rest, batch, fewer⟩ := takeBatch_of_filled 256 (by decide) filled
  have taken : state.taken = ({ state with base := state.base.take } : State).notifyProduce := by
    unfold State.taken
    simp only [batch]
  refine ⟨taken, ?_, ?_⟩
  · rw [taken]
    simp only [State.notifyProduce, State.queue, take_sink]
    exact fewer
  · rw [taken]
    simp only [State.notifyProduce, take_sink]
    rw [show state.base.sink.queue = state.queue from rfl, batch]
    exact Nat.zero_lt_succ _

theorem taken_calls (state : State) : state.taken.base.calls = state.base.calls := by
  rcases Nat.eq_zero_or_pos state.queue.size with empty | filled
  · rw [taken_of_empty empty]
  · rw [(taken_of_filled filled).1]
    rfl

theorem taken_flushes (state : State) : state.taken.base.flushes = state.base.flushes := by
  rcases Nat.eq_zero_or_pos state.queue.size with empty | filled
  · rw [taken_of_empty empty]
  · rw [(taken_of_filled filled).1]
    rfl

theorem Sound.owes_nothing (sound : Sound state) (ready : state.ready) : state.workerOwes = false := by
  rcases ready with ⟨-, owes⟩ | waiting
  · exact owes
  · refine Bool.of_not_eq_true fun owes => ?_
    rw [sound.owing owes] at waiting
    cases waiting

theorem Sound.nothing_inflight (sound : Sound state) (ready : state.ready) : state.base.sink.inflight = 0 := by
  by_contra busy
  obtain ⟨batch, delivering⟩ := sound.busy busy
  rcases ready with ⟨top, -⟩ | waiting
  · rw [top] at delivering
    cases delivering
  · rw [waiting] at delivering
    cases delivering

theorem Sound.taken (sound : Sound state) (controlled : Controlled state.taken.base) (ready : state.ready)
    (free : state.mutex = none) : Sound state.taken := by
  have settled := sound.nothing_inflight ready
  have owesNothing := sound.owes_nothing ready
  rcases Nat.eq_zero_or_pos state.queue.size with empty | filled
  · rw [taken_of_empty empty] at controlled ⊢
    exact {
      controlled := controlled
      busy := fun _ => ⟨[], rfl⟩
      owing := by simp [owesNothing]
      holder := by simp [free]
      held := by simp [free]
      submits := sound.submits
      flushes := by
        intro id waiting asleep
        rcases sound.flushes id waiting asleep with filled | busy | owes
        · exact absurd empty filled
        · exact absurd settled busy
        · exact .inr (.inr owes)
      worker := by simp
      joining := sound.joining
      finishing := sound.finishing }
  · obtain ⟨taken, -, -⟩ := taken_of_filled filled
    rw [taken] at controlled ⊢
    exact {
      controlled := controlled
      busy := fun _ => ⟨_, take_worker state.base⟩
      owing := by simp [State.notifyProduce, owesNothing]
      holder := by simp [State.notifyProduce, free]
      held := by simp [State.notifyProduce, free]
      submits := by simp [State.notifyProduce]
      flushes := by simp [State.notifyProduce]
      worker := by simp [State.notifyProduce, take_worker]
      joining := sound.joining
      finishing := sound.finishing }

theorem Sound.works (sound : Sound state) (controlled : Controlled after.base) (works : Works state after) :
    Sound after := by
  cases works with
  | @block id record looks free full =>
    refine ⟨controlled, sound.busy, sound.owing, ?_, ?_, fun _ _ _ _ => full, sound.flushes, sound.worker,
      sound.joining, sound.finishing⟩
    · rintro party ⟨⟩
      exact full
    · rintro party ⟨⟩
      exact ⟨record, Function.update_self ..⟩
  | inline looks free =>
    exact sound.frame controlled rfl rfl rfl rfl (fun _ _ blocked => blocked_of_entered blocked (by simp))
      (fun _ waiting => waiting) (by simp [free])
  | enqueue looks free running room =>
    refine ⟨controlled, sound.busy, sound.owing, ?_, ?_, ?_, ?_, ?_, sound.joining, sound.finishing⟩
    · simp [State.notifyConsume, free]
    · simp [State.notifyConsume, free]
    · intro other record blocked asleep
      exact absurd (sound.submits other record (blocked_of_entered blocked (by simp)) asleep) room
    · exact fun _ _ _ => .inl (Nat.succ_ne_zero _)
    · simp [State.notifyConsume]
  | drop was free =>
    exact sound.frame controlled rfl rfl rfl rfl (fun _ _ blocked => blocked_of_entered blocked (by simp))
      (fun _ waiting => waiting) (by simp [free])
  | @deliverInline id record was =>
    refine sound.frame controlled rfl rfl rfl rfl (fun _ _ blocked => blocked_of_entered blocked (by simp))
      (fun _ waiting => waiting) ?_
    exact fun party held => (sound.held party held).entered (by simp [was])
  | exit ready free empty top =>
    refine ⟨controlled, ?_, ?_, sound.holder, by simp [free], sound.submits, sound.flushes, by simp, sound.joining,
      sound.finishing⟩
    · exact fun busy => absurd (sound.nothing_inflight ready) busy
    · simp [sound.owes_nothing ready]
  | doze ready free running empty awake =>
    refine ⟨controlled, ?_, ?_, ?_, ?_, sound.submits, sound.flushes, fun _ _ => empty, sound.joining, sound.finishing⟩
    · exact fun busy => absurd (sound.nothing_inflight ready) busy
    · simp [State.doze, sound.owes_nothing ready]
    · rintro party ⟨⟩
      exact empty
    · rintro party ⟨⟩
      exact rfl
  | take ready free due => exact sound.taken controlled ready free
  | deliverNext delivering =>
    refine ⟨controlled, fun _ => ⟨_, rfl⟩, ?_, sound.holder, ?_, sound.submits, sound.flushes, by simp, sound.joining,
      sound.finishing⟩
    · intro owes
      rw [sound.owing owes] at delivering
      cases delivering
    · exact fun party held => (sound.held party held).working (by simp [delivering])
  | settle delivering free =>
    exact ⟨controlled, by simp, fun _ => rfl, by simp [free], by simp [free], sound.submits,
      fun _ _ _ => .inr (.inr rfl), by simp, sound.joining, sound.finishing⟩
  | workerNotify owes =>
    refine ⟨controlled, sound.busy, by simp, sound.holder, sound.held, ?_, ?_, sound.worker, sound.joining,
      sound.finishing⟩
    · simp [State.notifyProduce]
    · simp [State.notifyProduce]
  | pass waiting free =>
    exact sound.frame controlled rfl rfl rfl rfl (fun _ _ blocked => blocked) (fun _ => waiting_of_passed)
      (by simp [free])
  | dozeFlush waiting awake free busy =>
    refine ⟨controlled, sound.busy, sound.owing, ?_, ?_, sound.submits, sound.flushes, sound.worker, sound.joining,
      sound.finishing⟩
    · rintro party ⟨⟩
      exact busy
    · rintro party ⟨⟩
      exact waiting
  | stopConsume owes =>
    refine ⟨controlled, sound.busy, sound.owing, sound.holder, sound.held, sound.submits, sound.flushes, ?_, ?_, ?_⟩
    · simp [State.notifyConsume]
    · exact fun _ => sound.joining (.inl owes)
    · simp
  | stopProduce owes =>
    refine ⟨controlled, sound.busy, sound.owing, sound.holder, sound.held, ?_, ?_, sound.worker, by simp, by simp⟩
    · simp [State.notifyProduce]
    · simp [State.notifyProduce]
  | join joining exited owes =>
    refine ⟨controlled, sound.busy, sound.owing, sound.holder, ?_, sound.submits, sound.flushes, sound.worker, ?_, ?_⟩
    · exact fun party held => (sound.held party held).working (by simp)
    · simp [owes]
    · simp [owes]
  | finish draining =>
    refine ⟨controlled, sound.busy, sound.owing, sound.holder, ?_, sound.submits, sound.flushes, sound.worker, by simp,
      fun _ => rfl⟩
    exact fun party held => (sound.held party held).working (by simp)
  | @sleep party held =>
    have holder := sound.holder party held
    cases party with
    | submit id =>
      exact ⟨controlled, sound.busy, sound.owing, by simp [State.sleep], by simp [State.sleep], fun _ _ _ _ => holder,
        sound.flushes, sound.worker, sound.joining, sound.finishing⟩
    | flush id =>
      refine ⟨controlled, sound.busy, sound.owing, by simp [State.sleep], by simp [State.sleep], sound.submits, ?_,
        sound.worker, sound.joining, sound.finishing⟩
      intro other waiting asleep
      rcases holder with filled | busy
      · exact .inl filled
      · exact .inr (.inl busy)
    | worker =>
      exact ⟨controlled, sound.busy, sound.owing, by simp [State.sleep], by simp [State.sleep], sound.submits,
        sound.flushes, fun _ _ => holder, sound.joining, sound.finishing⟩

theorem asleep_of_roused {waits : Nat → Wait} {id other : Nat}
    (asleep : Function.update waits id .awake other = .asleep) : waits other = .asleep := by
  by_cases same : other = id
  · subst same
    rw [Function.update_self] at asleep
    cases asleep
  · rwa [Function.update_of_ne same] at asleep

theorem Sound.moves (sound : Sound state) (controlled : Controlled after.base) (moves : Moves state after) :
    Sound after := by
  cases moves with
  | works works => exact sound.works controlled works
  | call idle =>
    refine sound.frame controlled rfl rfl rfl rfl (fun _ _ blocked => blocked_of_entered blocked (by simp))
      (fun _ waiting => waiting) ?_
    exact fun party held => (sound.held party held).entered (by simp [idle])
  | @flush id idle =>
    refine ⟨controlled, sound.busy, sound.owing, sound.holder, ?_, sound.submits, ?_, sound.worker, sound.joining,
      sound.finishing⟩
    · intro party held
      have waits := sound.held party held
      cases party with
      | submit _ => exact waits
      | flush waiter =>
        have different : waiter ≠ id := by
          rintro rfl
          rw [InWait, idle] at waits
          cases waits
        exact (Function.update_of_ne different ..).trans waits
      | worker => exact waits
    · intro waiter waiting asleep
      have different : waiter ≠ id := by
        rintro rfl
        have awake : Wait.awake = .asleep := (Function.update_self ..).symm.trans asleep
        cases awake
      refine sound.flushes waiter ((Function.update_of_ne different ..).symm.trans waiting) ?_
      exact (Function.update_of_ne different ..).symm.trans asleep
  | exchange idle running =>
    refine ⟨controlled, sound.busy, sound.owing, sound.holder, ?_, sound.submits, sound.flushes, sound.worker,
      fun _ => rfl, by simp⟩
    exact fun party held => (sound.held party held).working fun waiting => waiting
  | timeout waiting free => exact sound.taken controlled (.inr waiting) free
  | rouse party =>
    cases party with
    | submit id =>
      refine ⟨controlled, sound.busy, sound.owing, sound.holder, sound.held, ?_, sound.flushes, sound.worker,
        sound.joining, sound.finishing⟩
      intro waiter record blocked asleep
      exact sound.submits waiter record blocked (asleep_of_roused asleep)
    | flush id =>
      refine ⟨controlled, sound.busy, sound.owing, sound.holder, sound.held, sound.submits, ?_, sound.worker,
        sound.joining, sound.finishing⟩
      intro waiter waiting asleep
      exact sound.flushes waiter waiting (asleep_of_roused asleep)
    | worker =>
      exact ⟨controlled, sound.busy, sound.owing, sound.holder, sound.held, sound.submits, sound.flushes,
        by simp [State.rouse], sound.joining, sound.finishing⟩

theorem step_controlled (controlled : Controlled state.base) (moved : step state act = some after) :
    Controlled after.base := by
  rcases step_refines moved with same | ⟨coarser, stepped⟩
  · rwa [same]
  · exact (Log.step_moves stepped).controlled controlled

theorem step_sound (sound : Sound state) (moved : step state act = some after) : Sound after :=
  sound.moves (step_controlled sound.controlled moved) (step_moves sound.controlled moved)

end Waits

end Log

end Enigma
