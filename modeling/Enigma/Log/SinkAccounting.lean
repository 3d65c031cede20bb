import Enigma.Log.SinkSteps

/-! Where a submitted record is. Every step moves records from one place to the next or
brings in the record of the call that returns with it, so a record is in one place from
then on. -/

namespace Enigma

namespace Log

namespace State

/-- Taken off the queue by the worker, and not delivered yet. -/
def batch (state : State) : List Submission :=
  match state.worker with
  | .delivering batch => batch
  | _ => []

/-- Taken off the queue by `stop`. -/
def hand (state : State) : List Submission :=
  match state.stop with
  | .delivering submission => [submission]
  | _ => []

def taken (state : State) : List Submission := state.batch ++ state.hand

/-- In how many places a submission is. -/
def tally (state : State) (submission : Submission) : Nat :=
  state.sink.queue.contents.count submission + state.taken.count submission + state.delivered.count submission +
    state.dropped.count submission

end State

variable {state after : State} {act : Act}

theorem batch_of_ready (ready : state.worker = .top ∨ state.worker = .waiting) : state.batch = [] := by
  unfold State.batch
  rcases ready with top | waiting
  · rw [top]
  · rw [waiting]

theorem tally_take (formed : state.sink.queue.WellFormed) (ready : state.worker = .top ∨ state.worker = .waiting)
    (submission : Submission) : state.take.tally submission = state.tally submission := by
  have contents := (takeBatch_spec formed 256).1
  have before := batch_of_ready ready
  have batch : state.take.batch = (takeBatch 256 state.sink.queue).1 := rfl
  have queue : state.take.sink.queue = (takeBatch 256 state.sink.queue).2 := rfl
  have hand : state.take.hand = state.hand := rfl
  simp only [State.tally, State.taken, batch, queue, hand, before, contents, List.count_append, List.nil_append]
  change _ + _ + state.delivered.count submission + state.dropped.count submission = _
  omega

theorem tally_enqueue (formed : state.sink.queue.WellFormed) (room : state.sink.queue.size ≠ state.sink.queue.capacity)
    (id : Nat) (record : LogRecord) (submission : Submission) : (state.enqueue id record).tally submission =
      state.tally submission + [Submission.mk id record].count submission := by
  have space : state.sink.queue.size < state.sink.queue.capacity := lt_of_le_of_ne formed.size room
  have contents : (state.enqueue id record).sink.queue.contents = state.sink.queue.contents ++ [⟨id, record⟩] :=
    formed.contents_push space ⟨id, record⟩
  have taken : (state.enqueue id record).taken = state.taken := rfl
  rw [State.tally, contents, taken, List.count_append, State.tally]
  change _ + _ + _ + state.delivered.count submission + state.dropped.count submission = _
  omega

theorem tally_drop (id : Nat) (record : LogRecord) (submission : Submission) :
    (state.drop id record).tally submission = state.tally submission + [Submission.mk id record].count submission := by
  have dropped : (state.drop id record).dropped = state.dropped ++ [⟨id, record⟩] := rfl
  rw [State.tally, dropped, List.count_append, ← Nat.add_assoc]
  rfl

theorem tally_deliver (delivered submission : Submission) :
    (state.deliver delivered).tally submission = state.tally submission + [delivered].count submission := by
  have behind : (state.deliver delivered).delivered = state.delivered ++ [delivered] := rfl
  have elsewhere : (state.deliver delivered).sink.queue = state.sink.queue ∧
      (state.deliver delivered).taken = state.taken ∧ (state.deliver delivered).dropped = state.dropped :=
    ⟨rfl, rfl, rfl⟩
  rw [State.tally, behind, elsewhere.1, elsewhere.2.1, elsewhere.2.2, List.count_append, State.tally]
  omega

theorem tally_drain (formed : state.sink.queue.WellFormed) (draining : state.stop = .draining)
    (filled : state.sink.queue.size ≠ 0) (submission : Submission) :
    State.tally { state with
      sink := { state.sink with queue := state.sink.queue.pop }
      stop := .delivering state.sink.queue.front } submission = state.tally submission := by
  have contents := formed.contents_pop (Nat.pos_of_ne_zero filled)
  simp only [State.tally, State.taken, State.batch, State.hand, draining, contents, List.count_append, List.count_cons,
    List.count_nil]
  omega

/-- A step that brings in no record, or brings in that of the call that returns. -/
theorem Moves.tally (moves : Moves state after) (formed : state.sink.queue.WellFormed) :
    ((∀ submission, after.tally submission = state.tally submission) ∧
        ∀ id record, after.calls id = .returned record ↔ state.calls id = .returned record) ∨
      ∃ id record, ¬(state.calls id).Returned ∧ after.calls = Function.update state.calls id (.returned record) ∧
        ∀ submission, after.tally submission = state.tally submission + [Submission.mk id record].count submission := by
  cases moves with
  | enter id phase pending still =>
    refine .inl ⟨fun _ => rfl, fun other record => ?_⟩
    change Function.update state.calls id phase other = .returned record ↔ state.calls other = .returned record
    rw [Function.update_apply]
    split
    · rename_i same
      subst same
      exact iff_of_false (fun returned => still ⟨record, returned⟩) fun returned => pending ⟨record, returned⟩
    · rfl
  | enqueue id record pending active room =>
    exact .inr ⟨id, record, pending, rfl, tally_enqueue formed room id record⟩
  | drop id record pending => exact .inr ⟨id, record, pending, rfl, tally_drop id record⟩
  | deliverInline id record pending => exact .inr ⟨id, record, pending, rfl, tally_deliver ⟨id, record⟩⟩
  | stay => exact .inl ⟨fun _ => rfl, fun _ _ => Iff.rfl⟩
  | exit top stopped empty =>
    refine .inl ⟨fun submission => ?_, fun _ _ => Iff.rfl⟩
    simp [State.tally, State.taken, State.batch, State.hand, top]
  | sleep top =>
    refine .inl ⟨fun submission => ?_, fun _ _ => Iff.rfl⟩
    simp [State.tally, State.taken, State.batch, State.hand, top]
  | take ready => exact .inl ⟨tally_take formed ready, fun _ _ => Iff.rfl⟩
  | deliverNext submission rest delivering =>
    refine .inl ⟨fun other => ?_, fun _ _ => Iff.rfl⟩
    simp only [State.tally, State.taken, State.batch, State.hand, State.deliver, delivering, List.count_append,
      List.count_cons, List.count_nil]
    omega
  | settle delivered =>
    refine .inl ⟨fun submission => ?_, fun _ _ => Iff.rfl⟩
    simp [State.tally, State.taken, State.batch, State.hand, delivered]
  | flush id phase => exact .inl ⟨fun _ => rfl, fun _ _ => Iff.rfl⟩
  | exchange idle =>
    refine .inl ⟨fun submission => ?_, fun _ _ => Iff.rfl⟩
    simp [State.tally, State.taken, State.batch, State.hand, idle]
  | again idle stopped =>
    refine .inl ⟨fun submission => ?_, fun _ _ => Iff.rfl⟩
    simp [State.tally, State.taken, State.batch, State.hand, idle]
  | join joining gone =>
    refine .inl ⟨fun submission => ?_, fun _ _ => Iff.rfl⟩
    simp [State.tally, State.taken, State.batch, State.hand, joining]
  | finish draining =>
    refine .inl ⟨fun submission => ?_, fun _ _ => Iff.rfl⟩
    simp [State.tally, State.taken, State.batch, State.hand, draining]
  | drain draining filled => exact .inl ⟨tally_drain formed draining filled, fun _ _ => Iff.rfl⟩
  | deliverDrained submission delivering =>
    refine .inl ⟨fun other => ?_, fun _ _ => Iff.rfl⟩
    simp only [State.tally, State.taken, State.batch, State.hand, State.deliver, delivering, List.count_append,
      List.count_cons, List.count_nil]
    omega

/-- Every record is in one place once its call has returned, and in none before. -/
def Accounted (state : State) : Prop :=
  ∀ submission, state.tally submission = if state.calls submission.call = .returned submission.record then 1 else 0

theorem new_accounted (sinks : List Level) (capacity : Nat) (policy : OverflowPolicy) :
    Accounted (.new sinks capacity policy) := by
  intro submission
  simp [State.tally, State.taken, State.batch, State.hand, State.new, AsyncSink.new, RingBuffer.contents,
    RingBuffer.new]

theorem Moves.accounted (moves : Moves state after) (formed : state.sink.queue.WellFormed)
    (accounted : Accounted state) : Accounted after := by
  intro submission
  rcases moves.tally formed with ⟨same, returned⟩ | ⟨id, record, pending, calls, more⟩
  · rw [same, accounted]
    simp only [returned]
  · rw [more, accounted, calls, Function.update_apply]
    by_cases same : submission = ⟨id, record⟩
    · have absent : state.calls id ≠ .returned record := fun returned => pending ⟨record, returned⟩
      rw [same, List.count_singleton_self, if_neg absent, if_pos rfl, if_pos rfl]
    · have none : [Submission.mk id record].count submission = 0 := List.count_eq_zero.mpr (by simpa using same)
      rw [none, Nat.add_zero]
      by_cases here : submission.call = id
      · have absent : state.calls submission.call ≠ .returned submission.record := by
          rw [here]
          exact fun returned => pending ⟨_, returned⟩
        have differs : SubmitPhase.returned record ≠ .returned submission.record := by
          intro equal
          cases equal
          cases here
          exact same rfl
        rw [if_neg absent, if_pos here, if_neg differs]
      · rw [if_neg here]

theorem Moves.returned (moves : Moves state after) (formed : state.sink.queue.WellFormed) {id : Nat}
    {record : LogRecord} (returned : state.calls id = .returned record) : after.calls id = .returned record := by
  rcases moves.tally formed with ⟨-, same⟩ | ⟨other, fresh, pending, calls, -⟩
  · exact (same id record).mpr returned
  · rw [calls, Function.update_of_ne]
    · exact returned
    · rintro rfl
      exact pending ⟨record, returned⟩

/-- The sinks behind have what was delivered, as far as they take it, and the counter
has what was dropped. What the sink was made with stays. -/
structure Reported (levels : List Level) (capacity : Nat) (policy : OverflowPolicy) (state : State) : Prop where
  levels : state.sink.sinks.map LogSink.level = levels
  received : ∀ sink ∈ state.sink.sinks, sink.received = state.delivered.filter sink.takes
  counted : state.sink.droppedRecords = UInt64.ofNat state.dropped.length
  capacity : state.sink.queue.capacity = capacity
  policy : state.sink.policy = policy

theorem new_reported (levels : List Level) (capacity : Nat) (policy : OverflowPolicy) :
    Reported levels (if capacity = 0 then 8192 else capacity) policy (.new levels capacity policy) where
  levels := by simp [State.new, AsyncSink.new, Function.comp_def]
  received := by simp [State.new, AsyncSink.new]
  counted := rfl
  capacity := List.length_replicate
  policy := rfl

variable {levels : List Level} {capacity : Nat} {policy : OverflowPolicy}

theorem Reported.deliver (reported : Reported levels capacity policy state) (submission : Submission) :
    Reported levels capacity policy (state.deliver submission) where
  levels := by
    rw [← reported.levels]
    change ((state.sink.sinks.map _).map LogSink.level) = _
    rw [List.map_map]
    apply List.map_congr_left
    intro sink _
    dsimp only [Function.comp]
    split <;> rfl
  received := by
    intro sink member
    obtain ⟨before, listed, rfl⟩ := List.mem_map.mp member
    have had := reported.received before listed
    by_cases takes : before.takes submission = true
    · rw [if_pos takes]
      change before.received ++ [submission] = (state.delivered ++ [submission]).filter before.takes
      rw [List.filter_append, List.filter_cons_of_pos takes, had]
      rfl
    · rw [if_neg takes]
      change before.received = (state.delivered ++ [submission]).filter before.takes
      rw [List.filter_append, List.filter_cons_of_neg takes, had, List.filter_nil, List.append_nil]
  counted := reported.counted
  capacity := reported.capacity
  policy := reported.policy

theorem Moves.reported (moves : Moves state after) (reported : Reported levels capacity policy state) :
    Reported levels capacity policy after := by
  obtain ⟨sinks, received, counted, room, kind⟩ := id reported
  cases moves with
  | enter id phase => exact ⟨sinks, received, counted, room, kind⟩
  | enqueue id record => exact ⟨sinks, received, counted, (RingBuffer.push_capacity ..).trans room, kind⟩
  | drop id record =>
    refine ⟨sinks, received, ?_, room, kind⟩
    change state.sink.droppedRecords + 1 = UInt64.ofNat (state.dropped ++ [_]).length
    rw [counted, List.length_append, List.length_singleton, UInt64.ofNat_add]
    rfl
  | deliverInline id record =>
    obtain ⟨sinks, received, counted, room, kind⟩ := reported.deliver ⟨id, record⟩
    exact ⟨sinks, received, counted, room, kind⟩
  | stay => exact reported
  | exit => exact ⟨sinks, received, counted, room, kind⟩
  | sleep => exact ⟨sinks, received, counted, room, kind⟩
  | take => exact ⟨sinks, received, counted, (takeBatch_capacity 256 _).trans room, kind⟩
  | deliverNext submission rest =>
    obtain ⟨sinks, received, counted, room, kind⟩ := reported.deliver submission
    exact ⟨sinks, received, counted, room, kind⟩
  | settle => exact ⟨sinks, received, counted, room, kind⟩
  | flush => exact ⟨sinks, received, counted, room, kind⟩
  | exchange => exact ⟨sinks, received, counted, room, kind⟩
  | again => exact ⟨sinks, received, counted, room, kind⟩
  | join => exact ⟨sinks, received, counted, room, kind⟩
  | finish => exact ⟨sinks, received, counted, room, kind⟩
  | drain => exact ⟨sinks, received, counted, room, kind⟩
  | deliverDrained submission =>
    obtain ⟨sinks, received, counted, room, kind⟩ := reported.deliver submission
    exact ⟨sinks, received, counted, room, kind⟩

/-- A record is dropped only by a call that finds the queue full and may not wait. -/
theorem Moves.dropped (moves : Moves state after) {submission : Submission} (member : submission ∈ after.dropped) :
    submission ∈ state.dropped ∨ (state.sink.queue.size = state.sink.queue.capacity ∧ state.sink.running = true ∧
      shouldBlock state.sink.policy submission.record = false) := by
  cases moves with
  | drop id record pending active full drops =>
    rcases List.mem_append.mp member with earlier | last
    · exact .inl earlier
    · rw [List.mem_singleton.mp last]
      exact .inr ⟨full, active, drops⟩
  | _ => exact .inl member

theorem Moves.contents (moves : Moves state after) (controlled : Controlled state) {submission : Submission}
    (member : submission ∈ state.sink.queue.contents) :
    submission ∈ after.sink.queue.contents ∨ submission ∈ after.taken := by
  cases moves with
  | enqueue id record pending active room =>
    have space : state.sink.queue.size < state.sink.queue.capacity := lt_of_le_of_ne controlled.formed.size room
    left
    change submission ∈ (state.sink.queue.push ⟨id, record⟩).contents
    rw [controlled.formed.contents_push space]
    exact List.mem_append_left _ member
  | take ready =>
    rw [(takeBatch_spec controlled.formed 256).1] at member
    rcases List.mem_append.mp member with batch | rest
    · exact .inr (List.mem_append_left _ batch)
    · exact .inl rest
  | drain draining filled => exact absurd (controlled.after_join (by simp [draining])).2 filled
  | _ => exact .inl member

theorem shouldBlock_eq_false_iff {record : LogRecord} : shouldBlock policy record = false ↔
    policy = .dropNewest ∨ (policy = .blockOnWarnPlus ∧ record.level.rank < Level.warn.rank) := by
  cases policy <;> simp [shouldBlock]

structure Sound (levels : List Level) (capacity : Nat) (policy : OverflowPolicy) (state : State) : Prop where
  controlled : Controlled state
  accounted : Accounted state
  reported : Reported levels capacity policy state

theorem Moves.sound (moves : Moves state after) (sound : Sound levels capacity policy state) :
    Sound levels capacity policy after where
  controlled := moves.controlled sound.controlled
  accounted := moves.accounted sound.controlled.formed sound.accounted
  reported := moves.reported sound.reported

theorem run_sound {acts : List Act} (sound : Sound levels capacity policy state)
    (ran : Interleaving.run step state acts = some after) : Sound levels capacity policy after :=
  Interleaving.run_keeps (Sound levels capacity policy) (fun sound moved => (step_moves moved).sound sound) sound ran

theorem run_returned {acts : List Act} {id : Nat} {record : LogRecord} (sound : Sound levels capacity policy state)
    (returned : state.calls id = .returned record) (ran : Interleaving.run step state acts = some after) :
    after.calls id = .returned record := by
  have kept := Interleaving.run_keeps
    (fun state => Sound levels capacity policy state ∧ state.calls id = .returned record) ?_ ⟨sound, returned⟩ ran
  · exact kept.2
  · intro state next act held moved
    have moves := step_moves moved
    exact ⟨moves.sound held.1, moves.returned held.1.controlled.formed held.2⟩

/-- With nothing in the queue and nothing taken off it, a record has been delivered or
dropped. -/
theorem Accounted.settled (accounted : Accounted state) (empty : state.sink.queue.size = 0) (idle : state.taken = [])
    {id : Nat} {record : LogRecord} (returned : state.calls id = .returned record) :
    state.delivered.count ⟨id, record⟩ + state.dropped.count ⟨id, record⟩ = 1 := by
  have total := accounted ⟨id, record⟩
  rw [if_pos returned, State.tally, idle, RingBuffer.contents_eq_nil_iff.mpr empty, List.count_nil] at total
  omega

theorem Controlled.hand_eq_nil (controlled : Controlled state) : state.hand = [] := by
  unfold State.hand
  split
  · rename_i submission delivering
    exact absurd delivering (controlled.emptyHanded submission)
  · rfl

/-- No batch is being delivered when none is counted. -/
theorem Controlled.taken_eq_nil (controlled : Controlled state)
    (idle : state.sink.inflight = 0 ∨ state.worker = .exited) : state.taken = [] := by
  rw [State.taken, controlled.hand_eq_nil, List.append_nil]
  unfold State.batch
  split
  · rename_i batch delivering
    rcases idle with none | gone
    · have bounded := controlled.inflight batch delivering
      exact List.length_eq_zero_iff.mp (by omega)
    · rw [delivering] at gone
      cases gone
  · rfl

theorem pass_waits {id : Nat} (moved : step state (.pass id) = some after) :
    state.sink.queue.size = 0 ∧ state.sink.inflight = 0 ∧ after.delivered = state.delivered ∧
      after.dropped = state.dropped := by
  cases phase : state.flushes id with
  | waiting =>
    simp only [step, phase] at moved
    split at moved
    · rename_i quiet
      cases moved
      exact ⟨quiet.1, quiet.2, rfl, rfl⟩
    · cases moved
  | _ => simp [step, phase] at moved

theorem async_sink_loses_nothing (levels : List Level) (capacity : Nat) (policy : OverflowPolicy) {acts : List Act}
    {state : State} (reached : Interleaving.run step (.new levels capacity policy) acts = some state) :
    (∀ id record, state.calls id = .returned record →
        state.sink.queue.contents.count ⟨id, record⟩ + state.taken.count ⟨id, record⟩ +
          state.delivered.count ⟨id, record⟩ + state.dropped.count ⟨id, record⟩ = 1 ∧
        (state.stop = .returned → state.delivered.count ⟨id, record⟩ + state.dropped.count ⟨id, record⟩ = 1)) ∧
      (∀ sink ∈ state.sink.sinks, sink.received = state.delivered.filter sink.takes) ∧
      state.sink.droppedRecords = UInt64.ofNat state.dropped.length ∧
      state.sink.queue.contents.length ≤ (if capacity = 0 then 8192 else capacity) ∧
      (∀ act after, step state act = some after →
        (∀ submission ∈ after.dropped, submission ∈ state.dropped ∨
          (state.sink.queue.contents.length = (if capacity = 0 then 8192 else capacity) ∧ state.sink.running = true ∧
            (policy = .dropNewest ∨
              (policy = .blockOnWarnPlus ∧ submission.record.level.rank < Level.warn.rank)))) ∧
        ∀ submission ∈ state.sink.queue.contents,
          submission ∈ after.sink.queue.contents ∨ submission ∈ after.taken) ∧
      ∀ flush later begun waiting passed, step state (.flush flush) = some begun →
        Interleaving.run step begun later = some waiting → step waiting (.pass flush) = some passed →
        ∀ id record, state.calls id = .returned record →
          passed.delivered.count ⟨id, record⟩ + passed.dropped.count ⟨id, record⟩ = 1 := by
  have sound : Sound levels (if capacity = 0 then 8192 else capacity) policy state :=
    run_sound ⟨new_controlled .., new_accounted _ _ _, new_reported ..⟩ reached
  have controlled := sound.controlled
  refine ⟨?_, sound.reported.received, sound.reported.counted, ?_, ?_, ?_⟩
  · intro id record returned
    refine ⟨(sound.accounted ⟨id, record⟩).trans (if_pos returned), ?_⟩
    intro stopped
    obtain ⟨gone, empty⟩ := controlled.after_join (by simp [stopped])
    exact sound.accounted.settled empty (controlled.taken_eq_nil (.inr gone)) returned
  · rw [RingBuffer.contents_length, ← sound.reported.capacity]
    exact controlled.formed.size
  · intro act after moved
    refine ⟨?_, fun submission member => (step_moves moved).contents controlled member⟩
    intro submission member
    rw [RingBuffer.contents_length, ← sound.reported.capacity, ← sound.reported.policy, ← shouldBlock_eq_false_iff]
    exact (step_moves moved).dropped member
  · intro flush later begun waiting passed began ran waited id record returned
    have moves := step_moves began
    have settled := run_sound (moves.sound sound) ran
    have still := run_returned (moves.sound sound) (moves.returned controlled.formed returned) ran
    obtain ⟨empty, idle, delivered, dropped⟩ := pass_waits waited
    rw [delivered, dropped]
    exact settled.accounted.settled empty (settled.controlled.taken_eq_nil (.inl idle)) still

/-- Two records for a queue of one, the second of which is dropped, and then `stop`. -/
theorem async_sink_loses_nothing_of_two :
    ∃ state, Interleaving.run step (.new [.info] 1 .dropNewest) [.call 0 ⟨.warn, "a"⟩, .call 1 ⟨.warn, "b"⟩, .lock 0,
        .lock 1, .work, .deliverNext, .settle, .exchange, .work, .join, .drain] = some state ∧
      state.stop = .returned ∧ state.delivered.count ⟨0, ⟨.warn, "a"⟩⟩ + state.dropped.count ⟨0, ⟨.warn, "a"⟩⟩ = 1 := by
  obtain ⟨state, reached, stopped, returned⟩ : ∃ state, Interleaving.run step (.new [.info] 1 .dropNewest)
        [.call 0 ⟨.warn, "a"⟩, .call 1 ⟨.warn, "b"⟩, .lock 0, .lock 1, .work, .deliverNext, .settle, .exchange, .work,
          .join, .drain] = some state ∧
      state.stop = .returned ∧ state.calls 0 = .returned ⟨.warn, "a"⟩ := ⟨_, rfl, rfl, rfl⟩
  exact ⟨state, reached, stopped,
    ((async_sink_loses_nothing [.info] 1 .dropNewest reached).1 0 ⟨.warn, "a"⟩ returned).2 stopped⟩

end Log

end Enigma
