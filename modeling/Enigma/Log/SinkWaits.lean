import Enigma.Log.SinkSteps

/-! The asynchronous sink with its mutex and its two condition variables. A thread that
waits looks at its condition under the mutex; only then does it go to sleep and give
the mutex back. A notification in between reaches nobody, and `stop` and the worker
notify without the mutex. -/

namespace Enigma

namespace Log

namespace Waits

inductive Wait where
  | awake
  | asleep
  deriving DecidableEq

/-- Those who may wait: on `cv_produce_` the calls, on `cv_consume_` the worker. -/
inductive Party where
  | submit (id : Nat)
  | flush (id : Nat)
  | worker
  deriving DecidableEq

/-- The notifications that `stop` comes to next. -/
inductive StopOwes where
  | nothing
  | both
  | produce
  | last
  deriving DecidableEq

/-- The mutex is with a thread that has looked in vain and is about to sleep. What is
done under the mutex otherwise is one step. -/
structure State where
  base : Log.State
  mutex : Option Party
  submits : Nat → Wait
  flushes : Nat → Wait
  worker : Wait
  workerOwes : Bool
  stopOwes : StopOwes

inductive Act where
  | call (id : Nat) (record : LogRecord)
  | lock (id : Nat)
  | wake (id : Nat)
  | deliverInline (id : Nat)
  | work
  | resume
  | timeout
  | deliverNext
  | settle
  | workerNotify
  | flush (id : Nat)
  | pass (id : Nat)
  | exchange
  | stopNotify
  | join
  | drain
  | deliverDrained
  | sleep
  | spurious (party : Party)

namespace State

def new (sinks : List Level) (capacity : Nat) (policy : OverflowPolicy) : State where
  base := .new sinks capacity policy
  mutex := none
  submits := fun _ => .awake
  flushes := fun _ => .awake
  worker := .awake
  workerOwes := false
  stopOwes := .nothing

variable (state : State)

def queue : RingBuffer Submission := state.base.sink.queue

def follow (act : Log.Act) : Option State := (Log.step state.base act).map fun base => { state with base := base }

def notifyConsume : State := { state with worker := .awake }

def notifyProduce : State := { state with submits := fun _ => .awake, flushes := fun _ => .awake }

def doze (party : Party) : State := { state with mutex := some party }

def sleep : Party → State
  | .submit id => { state with mutex := none, submits := Function.update state.submits id .asleep }
  | .flush id => { state with mutex := none, flushes := Function.update state.flushes id .asleep }
  | .worker => { state with mutex := none, worker := .asleep }

def rouse : Party → State
  | .submit id => { state with submits := Function.update state.submits id .awake }
  | .flush id => { state with flushes := Function.update state.flushes id .awake }
  | .worker => { state with worker := .awake }

/-- The record goes into the queue. -/
def hasRoom : Bool := state.base.sink.running && state.queue.size != state.queue.capacity

/-- What a submit does under the mutex: it waits, or it is done, and the worker hears of
its record. -/
def looked (id : Nat) (after : State) : State :=
  match after.base.calls id with
  | .blocked _ => after.doze (.submit id)
  | _ => if state.hasRoom then after.notifyConsume else after

/-- A batch that is not empty makes room. -/
def worked (after : State) : State :=
  match after.base.worker with
  | .waiting => after.doze .worker
  | .delivering (_ :: _) => after.notifyProduce
  | _ => after

end State

def step (state : State) : Act → Option State
  | .call id record => state.follow (.call id record)
  | .lock id => if state.mutex = none then (state.follow (.lock id)).map (state.looked id) else none
  | .wake id =>
    if state.mutex = none ∧ state.submits id = .awake then (state.follow (.wake id)).map (state.looked id) else none
  | .deliverInline id => state.follow (.deliverInline id)
  | .work =>
    if state.mutex = none ∧ state.workerOwes = false then (state.follow .work).map State.worked else none
  | .resume =>
    if state.mutex = none ∧ state.worker = .awake then
      if 0 < state.queue.size ∨ state.base.sink.running = false then (state.follow .resume).map State.worked
      else
        match state.base.worker with
        | .waiting => some (state.doze .worker)
        | _ => none
    else none
  -- the time is up: the worker goes on whatever it finds
  | .timeout =>
    if state.mutex = none ∧ state.worker = .asleep then (state.follow .resume).map State.worked else none
  | .deliverNext => state.follow .deliverNext
  | .settle =>
    if state.mutex = none then (state.follow .settle).map fun after => { after with workerOwes := true } else none
  | .workerNotify => if state.workerOwes then some { state.notifyProduce with workerOwes := false } else none
  | .flush id => (state.follow (.flush id)).map fun after => after.rouse (.flush id)
  | .pass id =>
    if state.mutex = none ∧ state.flushes id = .awake then
      match state.base.flushes id with
      | .waiting =>
        if state.queue.size = 0 ∧ state.base.sink.inflight = 0 then state.follow (.pass id)
        else some (state.doze (.flush id))
      | _ => none
    else none
  | .exchange =>
    (state.follow .exchange).map fun after =>
      if state.base.sink.running then { after with stopOwes := .both } else after
  | .stopNotify =>
    match state.stopOwes with
    | .nothing => none
    | .both => some { state.notifyConsume with stopOwes := .produce }
    | .produce | .last => some { state.notifyProduce with stopOwes := .nothing }
  | .join => if state.stopOwes = .nothing then state.follow .join else none
  | .drain =>
    if state.mutex = none then
      (state.follow .drain).map fun after =>
        match after.base.stop with
        | .returned => { after with stopOwes := .last }
        | _ => after
    else none
  | .deliverDrained => state.follow .deliverDrained
  | .sleep => state.mutex.map state.sleep
  | .spurious party => some (state.rouse party)

variable {state after : State} {act : Act}

/-- A submit that looks at the queue. -/
def State.looks (state : State) (id : Nat) (record : LogRecord) : Prop :=
  state.base.calls id = .entering record ∨ (state.base.calls id = .blocked record ∧ state.submits id = .awake)

/-- The worker looks for records only when it has none and owes no notification. -/
def State.ready (state : State) : Prop :=
  (state.base.worker = .top ∧ state.workerOwes = false) ∨ state.base.worker = .waiting

/-- The worker with its batch. -/
def State.taken (state : State) : State :=
  let after := { state with base := state.base.take }
  match (takeBatch 256 state.queue).1 with
  | [] => after
  | _ :: _ => after.notifyProduce

/-- What those can do who are not done. -/
inductive Works (state : State) : State → Prop where
  | block {id : Nat} {record : LogRecord} (looks : state.looks id record) (free : state.mutex = none)
    (full : state.queue.size = state.queue.capacity) :
    Works state ({ state with base := state.base.enter id (.blocked record) }.doze (.submit id))
  | inline {id : Nat} {record : LogRecord} (looks : state.looks id record) (free : state.mutex = none) :
    Works state { state with base := state.base.enter id (.inline record) }
  | enqueue {id : Nat} {record : LogRecord} (looks : state.looks id record) (free : state.mutex = none)
    (running : state.base.sink.running = true) (room : state.queue.size ≠ state.queue.capacity) :
    Works state { state with base := state.base.enqueue id record }.notifyConsume
  | drop {id : Nat} {record : LogRecord} (was : state.base.calls id = .entering record) (free : state.mutex = none) :
    Works state { state with base := state.base.drop id record }
  | deliverInline {id : Nat} {record : LogRecord} (was : state.base.calls id = .inline record) :
    Works state { state with base := (state.base.deliver ⟨id, record⟩).enter id (.returned record) }
  | exit (ready : state.ready) (free : state.mutex = none) (empty : state.queue.size = 0)
    (top : state.base.worker = .top) :
    Works state { state with base := { state.base with worker := .exited } }
  | doze (ready : state.ready) (free : state.mutex = none) (running : state.base.sink.running = true)
    (empty : state.queue.size = 0) (awake : state.base.worker = .waiting → state.worker = .awake) :
    Works state ({ state with base := { state.base with worker := .waiting } }.doze .worker)
  | take (ready : state.ready) (free : state.mutex = none)
    (due : 0 < state.queue.size ∨ (state.base.sink.running = false ∧ state.base.worker = .waiting)) :
    Works state state.taken
  | deliverNext {submission : Submission} {rest : List Submission}
    (delivering : state.base.worker = .delivering (submission :: rest)) :
    Works state { state with base := { state.base.deliver submission with worker := .delivering rest } }
  | settle (delivering : state.base.worker = .delivering []) (free : state.mutex = none) :
    Works state { state with
      base := { state.base with sink := { state.base.sink with inflight := 0 }, worker := .top }
      workerOwes := true }
  | workerNotify (owes : state.workerOwes = true) : Works state { state.notifyProduce with workerOwes := false }
  | pass {id : Nat} (waiting : state.base.flushes id = .waiting) (free : state.mutex = none) :
    Works state { state with base := { state.base with flushes := Function.update state.base.flushes id .passed } }
  | dozeFlush {id : Nat} (waiting : state.base.flushes id = .waiting) (awake : state.flushes id = .awake)
    (free : state.mutex = none) (busy : state.queue.size ≠ 0 ∨ state.base.sink.inflight ≠ 0) :
    Works state (state.doze (.flush id))
  | stopConsume (owes : state.stopOwes = .both) : Works state { state.notifyConsume with stopOwes := .produce }
  | stopProduce (owes : state.stopOwes = .produce ∨ state.stopOwes = .last) :
    Works state { state.notifyProduce with stopOwes := .nothing }
  | join (joining : state.base.stop = .joining) (exited : state.base.worker = .exited)
    (owes : state.stopOwes = .nothing) : Works state { state with base := { state.base with stop := .draining } }
  | finish (draining : state.base.stop = .draining) :
    Works state { state with base := { state.base with stop := .returned }, stopOwes := .last }
  | sleep {party : Party} (held : state.mutex = some party) : Works state (state.sleep party)

/-- All that can happen: also new calls, and wakings that nobody has caused. -/
inductive Moves (state : State) : State → Prop where
  | works {after : State} (works : Works state after) : Moves state after
  | call {id : Nat} {record : LogRecord} (idle : state.base.calls id = .idle) :
    Moves state { state with base := state.base.enter id (.entering record) }
  | flush {id : Nat} (idle : state.base.flushes id = .idle) :
    Moves state ({ state with
      base := { state.base with flushes := Function.update state.base.flushes id .waiting } }.rouse (.flush id))
  | exchange (idle : state.base.stop = .idle) (running : state.base.sink.running = true) :
    Moves state { state with
      base := { state.base with sink := { state.base.sink with running := false }, stop := .joining }
      stopOwes := .both }
  | timeout (waiting : state.base.worker = .waiting) (free : state.mutex = none) : Moves state state.taken
  | rouse (party : Party) : Moves state (state.rouse party)

theorem follow_eq_some {act : Log.Act} (followed : state.follow act = some after) :
    ∃ base, Log.step state.base act = some base ∧ after = { state with base := base } := by
  obtain ⟨base, moved, rfl⟩ := Option.map_eq_some_iff.mp followed
  exact ⟨base, moved, rfl⟩

@[simp] theorem doze_base (state : State) (party : Party) : (state.doze party).base = state.base := rfl

@[simp] theorem sleep_base (state : State) (party : Party) : (state.sleep party).base = state.base := by
  cases party <;> rfl

@[simp] theorem rouse_base (state : State) (party : Party) : (state.rouse party).base = state.base := by
  cases party <;> rfl

@[simp] theorem looked_base (state after : State) (id : Nat) : (state.looked id after).base = after.base := by
  unfold State.looked
  split
  · rfl
  · split <;> rfl

@[simp] theorem worked_base (after : State) : after.worked.base = after.base := by
  unfold State.worked
  split <;> rfl

theorem follows {act : Log.Act} {change : State → State} (base : ∀ after, (change after).base = after.base)
    (moved : (state.follow act).map change = some after) :
    ∃ coarser, Log.step state.base coarser = some after.base := by
  obtain ⟨followed, went, rfl⟩ := Option.map_eq_some_iff.mp moved
  obtain ⟨next, stepped, rfl⟩ := follow_eq_some went
  rw [base]
  exact ⟨act, stepped⟩

/-- The coarser model goes along, or stays where it is. -/
theorem step_refines (moved : step state act = some after) :
    after.base = state.base ∨ ∃ coarser, Log.step state.base coarser = some after.base := by
  cases act with
  | lock id =>
    obtain ⟨-, moved⟩ := Option.ite_none_right_eq_some.mp moved
    exact .inr (follows (looked_base state · id) moved)
  | wake id =>
    obtain ⟨-, moved⟩ := Option.ite_none_right_eq_some.mp moved
    exact .inr (follows (looked_base state · id) moved)
  | work =>
    obtain ⟨-, moved⟩ := Option.ite_none_right_eq_some.mp moved
    exact .inr (follows worked_base moved)
  | timeout =>
    obtain ⟨-, moved⟩ := Option.ite_none_right_eq_some.mp moved
    exact .inr (follows worked_base moved)
  | settle =>
    obtain ⟨-, moved⟩ := Option.ite_none_right_eq_some.mp moved
    exact .inr (follows (fun after => show { after with workerOwes := true }.base = after.base from rfl) moved)
  | flush id => exact .inr (follows (fun after => rouse_base after _) moved)
  | exchange => 
    refine .inr (follows (fun after => ?_) moved)
    split <;> rfl
  | drain =>
    obtain ⟨-, moved⟩ := Option.ite_none_right_eq_some.mp moved
    refine .inr (follows (fun after => ?_) moved)
    split <;> rfl
  | resume =>
    obtain ⟨-, moved⟩ := Option.ite_none_right_eq_some.mp moved
    by_cases due : 0 < state.queue.size ∨ state.base.sink.running = false
    · rw [if_pos due] at moved
      exact .inr (follows worked_base moved)
    · rw [if_neg due] at moved
      split at moved
      · cases moved
        exact .inl rfl
      · cases moved
  | pass id =>
    obtain ⟨-, moved⟩ := Option.ite_none_right_eq_some.mp moved
    split at moved
    · split at moved
      · obtain ⟨next, stepped, rfl⟩ := follow_eq_some moved
        exact .inr ⟨_, stepped⟩
      · cases moved
        exact .inl rfl
    · cases moved
  | join =>
    obtain ⟨-, moved⟩ := Option.ite_none_right_eq_some.mp moved
    obtain ⟨next, stepped, rfl⟩ := follow_eq_some moved
    exact .inr ⟨_, stepped⟩
  | workerNotify =>
    obtain ⟨-, ⟨⟩⟩ := Option.ite_none_right_eq_some.mp moved
    exact .inl rfl
  | stopNotify =>
    simp only [step] at moved
    split at moved
    · cases moved
    all_goals
      cases moved
      exact .inl rfl
  | sleep =>
    obtain ⟨party, -, rfl⟩ := Option.map_eq_some_iff.mp moved
    exact .inl (sleep_base state party)
  | spurious party =>
    cases moved
    exact .inl (rouse_base state party)
  | _ =>
    obtain ⟨next, stepped, rfl⟩ := follow_eq_some moved
    exact .inr ⟨_, stepped⟩
theorem looked_entered {base : Log.State} {id : Nat} {phase : SubmitPhase} (entered : base.calls id = phase)
    (waits : ∀ record, phase ≠ .blocked record) :
    state.looked id { state with base := base } =
      if state.hasRoom then { state with base := base }.notifyConsume else { state with base := base } := by
  unfold State.looked
  split
  · rename_i record blocked
    exact absurd (entered.symm.trans blocked) (waits record)
  · rfl

theorem looked_blocked {base : Log.State} {id : Nat} {record : LogRecord} (entered : base.calls id = .blocked record) :
    state.looked id { state with base := base } = { state with base := base }.doze (.submit id) := by
  simp only [State.looked, entered]

theorem hasRoom_eq_false (closed : state.base.sink.running = false ∨ state.queue.size = state.queue.capacity) :
    state.hasRoom = false := by
  rcases closed with stopped | full
  · simp [State.hasRoom, stopped]
  · simp [State.hasRoom, full]

theorem hasRoom_eq_true (running : state.base.sink.running = true) (room : state.queue.size ≠ state.queue.capacity) :
    state.hasRoom = true := by
  simp [State.hasRoom, running, room]

theorem lock_works {id : Nat} (moved : step state (.lock id) = some after) : Works state after := by
  obtain ⟨free, moved⟩ := Option.ite_none_right_eq_some.mp moved
  obtain ⟨followed, went, rfl⟩ := Option.map_eq_some_iff.mp moved
  obtain ⟨base, stepped, rfl⟩ := follow_eq_some went
  cases was : state.base.calls id with
  | entering record =>
    simp only [Log.step, was] at stepped
    by_cases stopped : state.base.sink.running = false
    · rw [if_pos stopped, Option.some.injEq] at stepped
      subst stepped
      rw [looked_entered (Function.update_self ..) (by simp), hasRoom_eq_false (.inl stopped)]
      exact .inline (.inl was) free
    · have running := Bool.of_not_eq_false stopped
      rw [if_neg stopped] at stepped
      by_cases full : state.base.sink.queue.size = state.base.sink.queue.capacity
      · rw [if_pos full] at stepped
        cases blocks : shouldBlock state.base.sink.policy record with
        | true =>
          rw [blocks, if_pos rfl, Option.some.injEq] at stepped
          subst stepped
          rw [looked_blocked (Function.update_self ..)]
          exact .block (.inl was) free full
        | false =>
          rw [blocks, if_neg Bool.false_ne_true, Option.some.injEq] at stepped
          subst stepped
          rw [looked_entered (Function.update_self ..) (by simp), hasRoom_eq_false (.inr full)]
          exact .drop was free
      · rw [if_neg full, Option.some.injEq] at stepped
        subst stepped
        rw [looked_entered (Function.update_self ..) (by simp), hasRoom_eq_true running full]
        exact .enqueue (.inl was) free running full
  | _ => simp [Log.step, was] at stepped

theorem enter_again {base : Log.State} {id : Nat} {phase : SubmitPhase} (was : base.calls id = phase) :
    base.enter id phase = base := by
  unfold Log.State.enter
  rw [← was, Function.update_eq_self]

theorem wake_works {id : Nat} (controlled : Controlled state.base) (moved : step state (.wake id) = some after) :
    Works state after := by
  obtain ⟨⟨free, awake⟩, moved⟩ := Option.ite_none_right_eq_some.mp moved
  obtain ⟨followed, went, rfl⟩ := Option.map_eq_some_iff.mp moved
  obtain ⟨base, stepped, rfl⟩ := follow_eq_some went
  cases was : state.base.calls id with
  | blocked record =>
    have looks : state.looks id record := .inr ⟨was, awake⟩
    simp only [Log.step, was] at stepped
    split at stepped
    · split at stepped
      · rename_i closed
        cases stepped
        rw [looked_entered (Function.update_self ..) (by simp), hasRoom_eq_false closed.symm]
        exact .inline looks free
      · rename_i otherwise
        cases stepped
        obtain ⟨room, stopped⟩ := not_or.mp otherwise
        have running := Bool.of_not_eq_false stopped
        rw [looked_entered (Function.update_self ..) (by simp), hasRoom_eq_true running room]
        exact .enqueue looks free running room
    · rename_i neither
      cases stepped
      have full : state.queue.size = state.queue.capacity :=
        Nat.le_antisymm controlled.formed.size (Nat.not_lt.mp (not_or.mp neither).1)
      have block := Works.block looks free full
      rw [enter_again was] at block
      rw [looked_blocked was]
      exact block
  | _ => simp [Log.step, was] at stepped

theorem take_worker (base : Log.State) : base.take.worker = .delivering (takeBatch 256 base.sink.queue).1 := by
  unfold Log.State.take
  rfl

theorem worked_take (state : State) : ({ state with base := state.base.take } : State).worked = state.taken := by
  unfold State.worked State.taken State.queue
  simp only [take_worker]
  generalize (takeBatch 256 state.base.sink.queue).1 = batch
  cases batch with
  | nil => rfl
  | cons submission rest => rfl

theorem work_works (moved : step state .work = some after) : Works state after := by
  obtain ⟨⟨free, owes⟩, moved⟩ := Option.ite_none_right_eq_some.mp moved
  obtain ⟨followed, went, rfl⟩ := Option.map_eq_some_iff.mp moved
  obtain ⟨base, stepped, rfl⟩ := follow_eq_some went
  cases top : state.base.worker with
  | top =>
    simp only [Log.step, top] at stepped
    by_cases done : state.base.sink.running = false ∧ state.base.sink.queue.size = 0
    · rw [if_pos done, Option.some.injEq] at stepped
      subst stepped
      exact .exit (.inl ⟨top, owes⟩) free done.2 top
    · rw [if_neg done] at stepped
      by_cases due : 0 < state.base.sink.queue.size ∨ state.base.sink.running = false
      · rw [if_pos due, Option.some.injEq] at stepped
        subst stepped
        rw [worked_take]
        refine .take (.inl ⟨top, owes⟩) free (.inl ?_)
        rcases due with filled | stopped
        · exact filled
        · exact Nat.pos_of_ne_zero fun empty => done ⟨stopped, empty⟩
      · rw [if_neg due, Option.some.injEq] at stepped
        subst stepped
        obtain ⟨empty, stopped⟩ := not_or.mp due
        exact .doze (.inl ⟨top, owes⟩) free (Bool.of_not_eq_false stopped) (Nat.eq_zero_of_not_pos empty)
          (by simp [top])
  | _ => simp [Log.step, top] at stepped

theorem resume_eq_some {base : Log.State} (stepped : Log.step state.base .resume = some base) :
    state.base.worker = .waiting ∧ base = state.base.take := by
  cases waiting : state.base.worker with
  | waiting =>
    simp only [Log.step, waiting, Option.some.injEq] at stepped
    exact ⟨rfl, stepped.symm⟩
  | _ => simp [Log.step, waiting] at stepped

theorem wait_again (waiting : state.base.worker = .waiting) :
    ({ state with base := { state.base with worker := .waiting } } : State) = state := by
  rw [← waiting]

theorem resume_works (moved : step state .resume = some after) : Works state after := by
  obtain ⟨⟨free, awake⟩, moved⟩ := Option.ite_none_right_eq_some.mp moved
  by_cases due : 0 < state.queue.size ∨ state.base.sink.running = false
  · rw [if_pos due] at moved
    obtain ⟨followed, went, rfl⟩ := Option.map_eq_some_iff.mp moved
    obtain ⟨base, stepped, rfl⟩ := follow_eq_some went
    obtain ⟨waiting, rfl⟩ := resume_eq_some stepped
    rw [worked_take]
    exact .take (.inr waiting) free (due.imp_right fun stopped => ⟨stopped, waiting⟩)
  · rw [if_neg due] at moved
    split at moved
    · rename_i waiting
      cases moved
      obtain ⟨empty, stopped⟩ := not_or.mp due
      have doze := Works.doze (.inr waiting) free (Bool.of_not_eq_false stopped) (Nat.eq_zero_of_not_pos empty)
        fun _ => awake
      rw [wait_again waiting] at doze
      exact doze
    · cases moved

theorem timeout_taken (moved : step state .timeout = some after) :
    state.base.worker = .waiting ∧ state.mutex = none ∧ after = state.taken := by
  obtain ⟨⟨free, asleep⟩, moved⟩ := Option.ite_none_right_eq_some.mp moved
  obtain ⟨followed, went, rfl⟩ := Option.map_eq_some_iff.mp moved
  obtain ⟨base, stepped, rfl⟩ := follow_eq_some went
  obtain ⟨waiting, rfl⟩ := resume_eq_some stepped
  exact ⟨waiting, free, worked_take state⟩

theorem pass_works {id : Nat} (moved : step state (.pass id) = some after) : Works state after := by
  obtain ⟨⟨free, awake⟩, moved⟩ := Option.ite_none_right_eq_some.mp moved
  split at moved
  · rename_i waiting
    by_cases empty : state.queue.size = 0 ∧ state.base.sink.inflight = 0
    · rw [if_pos empty] at moved
      obtain ⟨base, stepped, rfl⟩ := follow_eq_some moved
      simp only [Log.step, waiting] at stepped
      obtain ⟨-, ⟨⟩⟩ := Option.ite_none_right_eq_some.mp stepped
      exact .pass waiting free
    · rw [if_neg empty] at moved
      cases moved
      exact .dozeFlush waiting awake free (not_and_or.mp empty)
  · cases moved

theorem stopNotify_works (moved : step state .stopNotify = some after) : Works state after := by
  simp only [step] at moved
  split at moved
  · cases moved
  · rename_i owes
    cases moved
    exact .stopConsume owes
  · rename_i owes
    cases moved
    exact .stopProduce (.inl owes)
  · rename_i owes
    cases moved
    exact .stopProduce (.inr owes)

theorem drain_works (controlled : Controlled state.base) (moved : step state .drain = some after) :
    Works state after := by
  obtain ⟨free, moved⟩ := Option.ite_none_right_eq_some.mp moved
  obtain ⟨followed, went, rfl⟩ := Option.map_eq_some_iff.mp moved
  obtain ⟨base, stepped, rfl⟩ := follow_eq_some went
  cases draining : state.base.stop with
  | draining =>
    have empty := (controlled.after_join (by simp [draining])).2
    simp only [Log.step, draining, if_pos empty, Option.some.injEq] at stepped
    subst stepped
    exact .finish draining
  | _ => simp [Log.step, draining] at stepped

theorem deliverNext_works (moved : step state .deliverNext = some after) : Works state after := by
  obtain ⟨base, stepped, rfl⟩ := follow_eq_some moved
  cases delivering : state.base.worker with
  | delivering batch =>
    cases batch with
    | nil => simp [Log.step, delivering] at stepped
    | cons submission rest =>
      simp only [Log.step, delivering, Option.some.injEq] at stepped
      subst stepped
      exact .deliverNext delivering
  | _ => simp [Log.step, delivering] at stepped

theorem settle_works (moved : step state .settle = some after) : Works state after := by
  obtain ⟨free, moved⟩ := Option.ite_none_right_eq_some.mp moved
  obtain ⟨followed, went, rfl⟩ := Option.map_eq_some_iff.mp moved
  obtain ⟨base, stepped, rfl⟩ := follow_eq_some went
  cases delivering : state.base.worker with
  | delivering batch =>
    cases batch with
    | nil =>
      simp only [Log.step, delivering, Option.some.injEq] at stepped
      subst stepped
      exact .settle delivering free
    | cons submission rest => simp [Log.step, delivering] at stepped
  | _ => simp [Log.step, delivering] at stepped

/-- The steps that need no new call, no waking that nobody has caused, and no time that
runs out unless `stop` has begun. -/
def Act.inner (state : State) : Act → Bool
  | .call _ _ | .flush _ | .exchange | .spurious _ => false
  | .timeout => !state.base.sink.running
  | _ => true

theorem step_works (controlled : Controlled state.base) (inner : act.inner state = true)
    (moved : step state act = some after) : Works state after := by
  cases act with
  | lock id => exact lock_works moved
  | wake id => exact wake_works controlled moved
  | deliverInline id =>
    obtain ⟨base, stepped, rfl⟩ := follow_eq_some moved
    cases was : state.base.calls id with
    | inline record =>
      simp only [Log.step, was, Option.some.injEq] at stepped
      subst stepped
      exact .deliverInline was
    | _ => simp [Log.step, was] at stepped
  | work => exact work_works moved
  | resume => exact resume_works moved
  | timeout =>
    obtain ⟨waiting, free, rfl⟩ := timeout_taken moved
    have stopped : state.base.sink.running = false := by simpa [Act.inner] using inner
    exact .take (.inr waiting) free (.inr ⟨stopped, waiting⟩)
  | deliverNext => exact deliverNext_works moved
  | settle => exact settle_works moved
  | workerNotify =>
    obtain ⟨owes, ⟨⟩⟩ := Option.ite_none_right_eq_some.mp moved
    exact .workerNotify owes
  | pass id => exact pass_works moved
  | stopNotify => exact stopNotify_works moved
  | join =>
    obtain ⟨owes, moved⟩ := Option.ite_none_right_eq_some.mp moved
    obtain ⟨base, stepped, rfl⟩ := follow_eq_some moved
    cases joining : state.base.stop with
    | joining =>
      cases exited : state.base.worker with
      | exited =>
        simp only [Log.step, joining, exited, Option.some.injEq] at stepped
        subst stepped
        have join := Works.join joining exited owes
        simp only [exited] at join
        exact join
      | _ => simp [Log.step, joining, exited] at stepped
    | _ => simp [Log.step, joining] at stepped
  | drain => exact drain_works controlled moved
  | deliverDrained =>
    obtain ⟨base, stepped, rfl⟩ := follow_eq_some moved
    cases delivering : state.base.stop with
    | delivering submission => exact absurd delivering (controlled.emptyHanded submission)
    | _ => simp [Log.step, delivering] at stepped
  | sleep =>
    obtain ⟨party, held, rfl⟩ := Option.map_eq_some_iff.mp moved
    exact .sleep held
  | _ => simp [Act.inner] at inner

theorem step_moves (controlled : Controlled state.base) (moved : step state act = some after) : Moves state after := by
  cases act with
  | call id record =>
    obtain ⟨base, stepped, rfl⟩ := follow_eq_some moved
    cases was : state.base.calls id with
    | idle =>
      simp only [Log.step, was, Option.some.injEq] at stepped
      subst stepped
      exact .call was
    | _ => simp [Log.step, was] at stepped
  | flush id =>
    obtain ⟨followed, went, rfl⟩ := Option.map_eq_some_iff.mp moved
    obtain ⟨base, stepped, rfl⟩ := follow_eq_some went
    cases was : state.base.flushes id with
    | idle =>
      simp only [Log.step, was, Option.some.injEq] at stepped
      subst stepped
      exact .flush was
    | _ => simp [Log.step, was] at stepped
  | exchange =>
    obtain ⟨followed, went, rfl⟩ := Option.map_eq_some_iff.mp moved
    obtain ⟨base, stepped, rfl⟩ := follow_eq_some went
    cases idle : state.base.stop with
    | idle =>
      have running := controlled.running.mpr idle
      simp only [Log.step, idle, running, if_true, Option.some.injEq] at stepped
      subst stepped
      rw [if_pos running]
      exact .exchange idle running
    | _ => simp [Log.step, idle] at stepped
  | timeout =>
    obtain ⟨waiting, free, rfl⟩ := timeout_taken moved
    exact .timeout waiting free
  | spurious party =>
    cases moved
    exact .rouse party
  | _ => exact .works (step_works controlled rfl moved)

end Waits

end Log

end Enigma
