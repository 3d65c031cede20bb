import Enigma.Foundation.Interleaving
import Enigma.Foundation.RingBuffer
import Mathlib.Data.UInt

/-! The asynchronous log sink with all that call it: any number of threads that submit
records or flush, the worker, and one thread that stops the sink. What happens under
the mutex from taking it to giving it back, or to waiting, is one step; so is handing
one record to the sinks behind, which happens outside. -/

namespace Enigma

namespace Log

inductive Level where
  | trace
  | debug
  | info
  | warn
  | error
  | fatal
  | off
  deriving DecidableEq, Inhabited

def Level.rank : Level → Nat
  | .trace => 0
  | .debug => 1
  | .info => 2
  | .warn => 3
  | .error => 4
  | .fatal => 5
  | .off => 6

inductive OverflowPolicy where
  | block
  | dropNewest
  | blockOnWarnPlus
  deriving DecidableEq

/-- Only the level of a record is looked at. -/
structure LogRecord where
  level : Level
  message : String
  deriving DecidableEq, Inhabited

/-- A record with the call that submitted it, so that equal records are told apart. -/
structure Submission where
  call : Nat
  record : LogRecord
  deriving DecidableEq, Inhabited

/-- A sink behind, with what was handed to it. -/
structure LogSink where
  level : Level
  received : List Submission

def LogSink.takes (sink : LogSink) (submission : Submission) : Bool := sink.level.rank ≤ submission.record.level.rank

def deliver (sinks : List LogSink) (submission : Submission) : List LogSink :=
  sinks.map fun sink =>
    if sink.takes submission then { sink with received := sink.received ++ [submission] } else sink

structure AsyncSink where
  sinks : List LogSink
  policy : OverflowPolicy
  queue : RingBuffer Submission
  inflight : Nat
  running : Bool
  droppedRecords : UInt64

def AsyncSink.new (sinks : List LogSink) (capacity : Nat) (policy : OverflowPolicy) : AsyncSink :=
  ⟨sinks, policy, .new (if capacity = 0 then 8192 else capacity), 0, true, 0⟩

def shouldBlock (policy : OverflowPolicy) (record : LogRecord) : Bool :=
  policy = .block ∨ (policy = .blockOnWarnPlus ∧ Level.warn.rank ≤ record.level.rank)

/-- The records that fit into a batch are taken off the queue. -/
def takeBatch : Nat → RingBuffer Submission → List Submission × RingBuffer Submission
  | 0, queue => ([], queue)
  | room + 1, queue =>
    if 0 < queue.size then
      let (later, rest) := takeBatch room queue.pop
      (queue.front :: later, rest)
    else ([], queue)

inductive SubmitPhase where
  | idle
  | entering (record : LogRecord)
  | blocked (record : LogRecord)
  | inline (record : LogRecord)
  | returned (record : LogRecord)
  deriving DecidableEq

/-- While it delivers, the worker has the rest of its batch. -/
inductive WorkerPhase where
  | top
  | waiting
  | delivering (batch : List Submission)
  | exited

inductive FlushPhase where
  | idle
  | waiting
  | passed
  deriving DecidableEq

inductive StopPhase where
  | idle
  | joining
  | draining
  | delivering (submission : Submission)
  | returned
  deriving DecidableEq

/-- `delivered` and `dropped` are what has been handed on or counted so far. -/
structure State where
  sink : AsyncSink
  calls : Nat → SubmitPhase
  worker : WorkerPhase
  flushes : Nat → FlushPhase
  stop : StopPhase
  delivered : List Submission
  dropped : List Submission

inductive Act where
  | call (id : Nat) (record : LogRecord)
  | lock (id : Nat)
  | wake (id : Nat)
  | deliverInline (id : Nat)
  | work
  | resume
  | deliverNext
  | settle
  | flush (id : Nat)
  | pass (id : Nat)
  | exchange
  | join
  | drain
  | deliverDrained

namespace State

def new (sinks : List Level) (capacity : Nat) (policy : OverflowPolicy) : State where
  sink := .new (sinks.map fun level => ⟨level, []⟩) capacity policy
  calls := fun _ => .idle
  worker := .top
  flushes := fun _ => .idle
  stop := .idle
  delivered := []
  dropped := []

def enter (state : State) (id : Nat) (phase : SubmitPhase) : State :=
  { state with calls := Function.update state.calls id phase }

def deliver (state : State) (submission : Submission) : State :=
  { state with
    sink := { state.sink with sinks := Log.deliver state.sink.sinks submission }
    delivered := state.delivered ++ [submission] }

def enqueue (state : State) (id : Nat) (record : LogRecord) : State :=
  { state with sink := { state.sink with queue := state.sink.queue.push ⟨id, record⟩ } }.enter id (.returned record)

def drop (state : State) (id : Nat) (record : LogRecord) : State :=
  { state with
    sink := { state.sink with droppedRecords := state.sink.droppedRecords + 1 }
    dropped := state.dropped ++ [Submission.mk id record] }.enter id (.returned record)

def take (state : State) : State :=
  let (batch, queue) := takeBatch 256 state.sink.queue
  { state with sink := { state.sink with queue, inflight := batch.length }, worker := .delivering batch }

end State

def step (state : State) : Act → Option State
  | .call id record =>
    match state.calls id with
    | .idle => some (state.enter id (.entering record))
    | _ => none
  | .lock id =>
    match state.calls id with
    | .entering record =>
      if state.sink.running = false then some (state.enter id (.inline record))
      else if state.sink.queue.size = state.sink.queue.capacity then
        -- the wait begins: neither room nor `stop` can have come under the lock
        if shouldBlock state.sink.policy record then some (state.enter id (.blocked record))
        else some (state.drop id record)
      else some (state.enqueue id record)
    | _ => none
  | .wake id =>
    match state.calls id with
    | .blocked record =>
      if state.sink.queue.size < state.sink.queue.capacity ∨ state.sink.running = false then
        if state.sink.queue.size = state.sink.queue.capacity ∨ state.sink.running = false then
          some (state.enter id (.inline record))
        else some (state.enqueue id record)
      else some state
    | _ => none
  | .deliverInline id =>
    match state.calls id with
    | .inline record => some ((state.deliver ⟨id, record⟩).enter id (.returned record))
    | _ => none
  | .work =>
    match state.worker with
    | .top =>
      if state.sink.running = false ∧ state.sink.queue.size = 0 then some { state with worker := .exited }
      else if 0 < state.sink.queue.size ∨ state.sink.running = false then some state.take
      else some { state with worker := .waiting }
    | _ => none
  -- the wait ends when it is notified, and also after some time
  | .resume =>
    match state.worker with
    | .waiting => some state.take
    | _ => none
  | .deliverNext =>
    match state.worker with
    | .delivering (submission :: rest) => some { state.deliver submission with worker := .delivering rest }
    | _ => none
  | .settle =>
    match state.worker with
    | .delivering [] => some { state with sink := { state.sink with inflight := 0 }, worker := .top }
    | _ => none
  | .flush id =>
    match state.flushes id with
    | .idle => some { state with flushes := Function.update state.flushes id .waiting }
    | _ => none
  | .pass id =>
    match state.flushes id with
    | .waiting =>
      if state.sink.queue.size = 0 ∧ state.sink.inflight = 0 then
        some { state with flushes := Function.update state.flushes id .passed }
      else none
    | _ => none
  | .exchange =>
    match state.stop with
    | .idle =>
      if state.sink.running then some { state with sink := { state.sink with running := false }, stop := .joining }
      else some { state with stop := .returned }
    | _ => none
  | .join =>
    match state.stop, state.worker with
    | .joining, .exited => some { state with stop := .draining }
    | _, _ => none
  | .drain =>
    match state.stop with
    | .draining =>
      if state.sink.queue.size = 0 then some { state with stop := .returned }
      else some { state with
        sink := { state.sink with queue := state.sink.queue.pop }
        stop := .delivering state.sink.queue.front }
    | _ => none
  | .deliverDrained =>
    match state.stop with
    | .delivering submission => some { state.deliver submission with stop := .draining }
    | _ => none

end Log

end Enigma
