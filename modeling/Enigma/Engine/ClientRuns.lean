import Enigma.Engine.Recovery

/-! Clients of a directory while I/O fails and the process dies. A run is a list
of requests, each with the script of its I/O calls; it leaves a directory, an
engine unless it died, and the writes that were issued. -/

namespace Enigma

namespace Engine

open Prog

structure Node where
  disk : Disk EntryFile
  engine : Option Dazzle

inductive Request where
  | put (key : Key) (value : Bytes) (timestamp : Nat)
  | remove (key : Key) (timestamp : Nat)
  | flush
  /-- Close the engine, if it runs, and open the directory. -/
  | open (config : Config)
  /-- The process dies between two calls. -/
  | crash

/-- What a client sees of a request. There is no answer when the engine died or
was not running. -/
inductive Answer where
  | ok
  | error (error : Error)
  | silent
  deriving DecidableEq

/-- A write that reached a running engine, with the value it would store. -/
structure Issue where
  key : Key
  value : InternalValue
  acknowledged : Bool

structure Run where
  issues : List Issue
  node : Node

def Run.start : Run := ⟨[], Disk.empty, none⟩

section

variable (shape : TableShape)

/-- Run a program on the node's engine, if it has one. -/
def perform (prog : Prog Call Error (World EntryFile) Unit) (script : Script Call) (node : Node) : Answer × Node :=
  match node.engine with
  | none => (.silent, node)
  | some engine =>
    match prog.run script ⟨node.disk, engine⟩ with
    | (.ok _, _, after) => (.ok, ⟨after.disk, some after.engine⟩)
    | (.err error, _, after) => (.error error, ⟨after.disk, some after.engine⟩)
    | (.crash, _, after) => (.silent, ⟨after.disk, none⟩)

def reopen (config : Config) (script : Script Call) (node : Node) : Answer × Node :=
  match (Engine.open (entryFormat shape) config).run script node.disk with
  | (.ok engine, _, disk) => (.ok, ⟨disk, some engine⟩)
  | (.err error, _, disk) => (.error error, ⟨disk, none⟩)
  | (.crash, _, disk) => (.silent, ⟨disk, none⟩)

def serve (request : Request) (script : Script Call) (node : Node) : Answer × Node :=
  match request with
  | .put key value timestamp => perform (put (entryFormat shape) key value timestamp) script node
  | .remove key timestamp => perform (remove (entryFormat shape) key timestamp) script node
  | .flush => perform (flush (entryFormat shape)) script node
  | .open config => reopen shape config script node
  | .crash => (.silent, { node with engine := none })

/-- The key and the value, or removal, that a request writes. An empty value is
refused before anything is done. -/
def Request.write : Request → Option (Key × Option Bytes × Nat)
  | .put key value timestamp => if value = [] then none else some (key, some value, timestamp)
  | .remove key timestamp => some (key, none, timestamp)
  | .flush | .open _ | .crash => none

def issued (request : Request) (answer : Answer) (node : Node) : Option Issue :=
  match request.write, node.engine with
  | some (key, value, _), some engine =>
    some ⟨key, ⟨value.getD [], value.isNone, engine.lsn⟩, answer == .ok⟩
  | _, _ => none

def answerOf (run : Run) (event : Request × Script Call) : Answer := (serve shape event.1 event.2 run.node).1

def advance (run : Run) (event : Request × Script Call) : Run where
  issues := run.issues ++ (issued event.1 (answerOf shape run event) run.node).toList
  node := (serve shape event.1 event.2 run.node).2

def runClient (events : List (Request × Script Call)) : Run := events.foldl (advance shape) .start

end

theorem runClient_concat (shape : TableShape) (events : List (Request × Script Call)) (event : Request × Script Call) :
    runClient shape (events ++ [event]) = advance shape (runClient shape events) event := by
  simp [runClient]

/-- What a client may send: keys have at least one byte, and no policy picks. -/
def Request.Valid : Request → Prop
  | .put key _ _ => key ≠ []
  | .remove key _ => key ≠ []
  | .open config => config.policy.NeverPicks
  | .flush | .crash => True

/-- The invariant of a node, running or not. -/
structure Tracked (shape : TableShape) (accepts : Reading) (node : Node) : Prop where
  closed : Closed shape Filled accepts node.disk
  running : ∀ engine, node.engine = some engine → Durable shape Filled accepts ⟨node.disk, engine⟩

def Tightened (node : Node) : Prop := ∀ engine, node.engine = some engine → Tight ⟨node.disk, engine⟩

/-- The state in which a request starts to flush, if it does. -/
def flushStart (request : Request) (node : Node) : Option (World EntryFile) :=
  match node.engine, request.write with
  | none, _ => none
  | some engine, some (key, value, timestamp) =>
    let after := written ⟨node.disk, engine⟩ key value timestamp
    if after.engine.activeMemtable.shouldFlush then some after else none
  | some engine, none =>
    match request with
    | .flush => if engine.activeMemtable.count = 0 then none else some ⟨node.disk, engine⟩
    | _ => none

/-- Where a request flushes, the counter of segments is at most one ahead of the
segment being written. -/
def FlushesTight (request : Request) (node : Node) : Prop := ∀ world ∈ (flushStart request node).toList, Tight world

instance (world : World EntryFile) : Decidable (Tight world) := inferInstanceAs (Decidable (_ ≤ _))

instance (request : Request) (node : Node) : Decidable (FlushesTight request node) :=
  inferInstanceAs (Decidable (∀ world ∈ Option.toList _, _))

/-- An open finds in the log only records that can be read back. -/
def FindsWhole (request : Request) (node : Node) : Prop :=
  match request with
  | .open _ => ∀ record ∈ walRecords node.disk, record.Fits
  | _ => True

instance (request : Request) (node : Node) : Decidable (FindsWhole request node) :=
  match request with
  | .open _ => inferInstanceAs (Decidable (∀ record ∈ walRecords node.disk, record.Fits))
  | .put _ _ _ | .remove _ _ | .flush | .crash => .isTrue trivial

/-- So does every open of a run. -/
def OpensWhole (shape : TableShape) : Run → List (Request × Script Call) → Prop
  | _, [] => True
  | run, event :: rest => FindsWhole event.1 run.node ∧ OpensWhole shape (advance shape run event) rest

instance opensWholeDecidable (shape : TableShape) : (run : Run) → (events : List (Request × Script Call)) →
    Decidable (OpensWhole shape run events)
  | _, [] => .isTrue trivial
  | run, event :: rest =>
    haveI := opensWholeDecidable shape (advance shape run event) rest
    inferInstanceAs (Decidable (FindsWhole event.1 run.node ∧ _))

theorem Tightened.flushesTight {node : Node} (tight : Tightened node) (request : Request) : FlushesTight request node := by
  intro world member
  rw [Option.mem_toList] at member
  unfold flushStart at member
  split at member
  · cases member
  · rename_i engine key value timestamp running _
    dsimp only at member
    split at member
    · cases member
      exact tight engine running
    · cases member
  · rename_i engine running _
    split at member
    · split at member
      · cases member
      · cases member
        exact tight engine running
    · cases member

section

variable {shape : TableShape} {accepts : Reading} {node : Node} {may : Call → Fate → Prop} {script : Script Call}

theorem Tracked.mono {weaker : Reading} (tracked : Tracked shape accepts node)
    (implies : ∀ key value, accepts key value → weaker key value) : Tracked shape weaker node where
  closed := tracked.closed.mono implies
  running := fun engine found => (tracked.running engine found).mono implies

theorem Durable.tracked {disk : Disk EntryFile} {engine : Dazzle} (durable : Durable shape Filled accepts ⟨disk, engine⟩) :
    Tracked shape accepts ⟨disk, some engine⟩ where
  closed := durable.toClosed
  running := by
    intro other same
    cases same
    exact durable

theorem Closed.tracked {disk : Disk EntryFile} (closed : Closed shape Filled accepts disk) :
    Tracked shape accepts ⟨disk, none⟩ where
  closed := closed
  running := by
    intro engine same
    cases same

theorem tightened_none (disk : Disk EntryFile) : Tightened ⟨disk, none⟩ := by
  intro engine same
  cases same

theorem tightened_some {world : World EntryFile} (tight : Tight world) : Tightened ⟨world.disk, some world.engine⟩ := by
  intro engine same
  cases same
  exact tight

/-- How a program on a running engine ends, from its weakest precondition. -/
theorem perform_spec {prog : Prog Call Error (World EntryFile) Unit} {engine : Dazzle} (running : node.engine = some engine)
    (allowed : Allowed may script) (post : Answer → Node → Prop)
    (holds : wp may prog ⟨fun _ after => post .ok ⟨after.disk, some after.engine⟩,
      fun error after => post (.error error) ⟨after.disk, some after.engine⟩,
      fun after => post .silent ⟨after.disk, none⟩⟩ ⟨node.disk, engine⟩) :
    post (perform prog script node).1 (perform prog script node).2 := by
  rcases run : prog.run script ⟨node.disk, engine⟩ with ⟨exit, rest, after⟩
  have ends := wp_run holds allowed run
  simp only [perform, running, run]
  cases exit <;> exact ends

theorem perform_idle {prog : Prog Call Error (World EntryFile) Unit} (idle : node.engine = none) :
    perform prog script node = (.silent, node) := by
  simp only [perform, idle]

/-- Whoever gets no answer finds no engine. -/
theorem perform_silent {prog : Prog Call Error (World EntryFile) Unit} (silent : (perform prog script node).1 = .silent) :
    (perform prog script node).2.engine = none := by
  unfold perform at silent ⊢
  split at silent
  · assumption
  · split at silent
    · cases silent
    · cases silent
    · rfl

/-- What a request keeps of a node, and which errors it answers. -/
structure Served (shape : TableShape) (accepts : Reading) (may : Call → Fate → Prop) (request : Request) (node : Node)
    (answer : Answer) (after : Node) : Prop where
  tracked : Tracked shape accepts after
  tight : ¬ Fallible may → Tightened node → Tightened after
  succeeds : ¬ Fallible may → shape.Atomic → ∀ error, answer = .error error →
    ∃ key timestamp, request = .put key [] timestamp

theorem Served.unchanged {request : Request} (tracked : Tracked shape accepts node) :
    Served shape accepts may request node .silent node :=
  ⟨tracked, fun _ tight => tight, fun _ _ _ same => by cases same⟩

theorem Served.died {request : Request} {disk : Disk EntryFile} (closed : Closed shape Filled accepts disk) :
    Served shape accepts may request node .silent ⟨disk, none⟩ :=
  ⟨closed.tracked, fun _ _ => tightened_none disk, fun _ _ _ same => by cases same⟩

theorem Served.failed {request : Request} {error : Error} {after : Node} (failed : Fallible may)
    (tracked : Tracked shape accepts after) : Served shape accepts may request node (.error error) after :=
  ⟨tracked, fun reliable => absurd failed reliable, fun reliable => absurd failed reliable⟩

theorem Served.succeeded {request : Request} {after : Node} (tracked : Tracked shape accepts after)
    (tight : ¬ Fallible may → Tightened node → Tightened after) : Served shape accepts may request node .ok after :=
  ⟨tracked, tight, fun _ _ _ same => by cases same⟩

theorem serve_flush (faults : WriteFaults may) (allowed : Allowed may script) (tracked : Tracked shape accepts node)
    (safe : FlushesTight .flush node) :
    Served shape accepts may .flush node (serve shape .flush script node).1 (serve shape .flush script node).2 := by
  cases running : node.engine with
  | none =>
    simp only [serve, perform_idle running]
    exact .unchanged tracked
  | some engine =>
    have durable := tracked.running engine running
    have tight : Tightened node → Tight ⟨node.disk, engine⟩ := fun tight => tight engine running
    refine perform_spec running allowed (Served shape accepts may .flush node) ?_
    have guard : engine.activeMemtable.count ≠ 0 → Tight ⟨node.disk, engine⟩ := by
      intro filled
      exact safe _ (by simp [flushStart, running, Request.write, filled])
    refine wp_flush faults durable guard ?_ ?_ ?_
    · intro after holds keeps
      exact .succeeded holds.tracked (fun _ earlier => tightened_some (keeps (tight earlier)))
    · intro error after failed holds
      exact .failed failed holds.tracked
    · intro after holds
      exact .died holds

theorem serve_open (faults : WriteFaults may) (allowed : Allowed may script) (tracked : Tracked shape accepts node)
    {config : Config} (idle : config.policy.NeverPicks) (whole : FindsWhole (.open config) node) :
    Served shape accepts may (.open config) node (serve shape (.open config) script node).1
      (serve shape (.open config) script node).2 := by
  have holds : wp may (Engine.open (entryFormat shape) config)
      ⟨fun engine disk => Served shape accepts may (.open config) node .ok ⟨disk, some engine⟩,
        fun error disk => Served shape accepts may (.open config) node (.error error) ⟨disk, none⟩,
        fun disk => Served shape accepts may (.open config) node .silent ⟨disk, none⟩⟩ node.disk := by
    have loggable : Closed shape Loggable accepts node.disk :=
      tracked.closed.relog fun record member => ⟨tracked.closed.logged record member, whole record member⟩
    refine wp_open faults loggable idle ?_ ?_ ?_
    · intro engine disk durable tight
      have filled := durable.relog fun record member => (durable.toClosed.logged record member).filled
      exact .succeeded filled.tracked (fun _ _ => tightened_some tight)
    · intro error disk reason closed
      have filled := closed.relog fun record member => (closed.logged record member).filled
      refine ⟨filled.tracked, fun _ _ => tightened_none disk, ?_⟩
      intro reliable atomic
      exact absurd (reason.resolve_left reliable) (not_not.mpr (tracked.closed.whole atomic))
    · intro disk closed
      exact .died (closed.relog fun record member => (closed.logged record member).filled)
  simp only [serve, reopen]
  rcases run : (Engine.open (entryFormat shape) config).run script node.disk with ⟨exit, rest, disk⟩
  have ends := wp_run holds allowed run
  cases exit <;> exact ends

/-- A request that writes nothing leaves what may be read as it is. -/
theorem serve_quiet (faults : WriteFaults may) (allowed : Allowed may script) (tracked : Tracked shape accepts node)
    {request : Request} (valid : request.Valid) (quiet : request.write = none) (safe : FlushesTight request node)
    (whole : FindsWhole request node) :
    Served shape accepts may request node (serve shape request script node).1 (serve shape request script node).2 := by
  cases request with
  | put key value timestamp =>
    have empty : value = [] := by simpa [Request.write] using quiet
    subst empty
    cases running : node.engine with
    | none =>
      simp only [serve, perform_idle running]
      exact .unchanged tracked
    | some engine =>
      have same : (⟨node.disk, some engine⟩ : Node) = node := by rw [← running]
      refine perform_spec running allowed (Served shape accepts may (.put key [] timestamp) node) ?_
      refine wp_fail ?_
      simp only [same]
      exact ⟨tracked, fun _ tight => tight, fun _ _ _ _ => ⟨key, timestamp, rfl⟩⟩
  | remove key timestamp => simp [Request.write] at quiet
  | flush => exact serve_flush faults allowed tracked safe
  | «open» config => exact serve_open faults allowed tracked valid whole
  | crash => exact .died tracked.closed

/-- Put and remove are writes of a key with at least one byte. -/
theorem serve_eq_write {request : Request} (valid : request.Valid) {key : Key} {value : Option Bytes} {timestamp : Nat}
    (writes : request.write = some (key, value, timestamp)) (script : Script Call) (node : Node) : key ≠ [] ∧
    serve shape request script node = perform (write (entryFormat shape) key value timestamp) script node := by
  cases request with
  | put other bytes time =>
    simp only [Request.write] at writes
    split at writes
    · cases writes
    · rename_i nonempty
      cases writes
      refine ⟨valid, ?_⟩
      simp only [serve, put, nonempty, ↓reduceIte]
  | remove other time =>
    cases writes
    exact ⟨valid, rfl⟩
  | flush | crash => cases writes
  | «open» config => cases writes

/-- A write. What may be read afterwards depends on the answer. -/
theorem serve_write (faults : WriteFaults may) (allowed : Allowed may script) (tracked : Tracked shape accepts node)
    {request : Request} (valid : request.Valid) (safe : FlushesTight request node) {key : Key} {value : Option Bytes}
    {timestamp : Nat} (writes : request.write = some (key, value, timestamp)) {engine : Dazzle}
    (running : node.engine = some engine) (acked pending : Reading)
    (keeps : ∀ probe held, probe ≠ key → accepts probe held → acked probe held)
    (stores : acked key (some (writtenValue ⟨node.disk, engine⟩ value)))
    (waits : ∀ probe held, accepts probe held → pending probe held)
    (settles : ∀ probe held, acked probe held → pending probe held) :
    Served shape (if (serve shape request script node).1 = .ok then acked else pending) may request node
      (serve shape request script node).1 (serve shape request script node).2 := by
  obtain ⟨keyed, served⟩ := serve_eq_write valid writes script node
  have filled : Filled (writtenRecord ⟨node.disk, engine⟩ key value timestamp) := keyed
  have guard : (written ⟨node.disk, engine⟩ key value timestamp).engine.activeMemtable.shouldFlush →
      Tight ⟨node.disk, engine⟩ := by
    intro full
    exact safe (written ⟨node.disk, engine⟩ key value timestamp) (by simp [flushStart, running, writes, full])
  have tight : Tightened node → Tight ⟨node.disk, engine⟩ := fun tight => tight engine running
  rw [served]
  refine perform_spec running allowed (fun answer after =>
    Served shape (if answer = .ok then acked else pending) may request node answer after) ?_
  refine wp_write faults (tracked.running engine running) filled keeps stores waits settles guard ?_ ?_ ?_
  · intro after holds stays
    simp only [↓reduceIte]
    exact .succeeded holds.tracked (fun _ earlier => tightened_some (stays (tight earlier)))
  · intro error after failed holds
    simp only [reduceCtorEq, ↓reduceIte]
    exact .failed failed holds.tracked
  · intro after holds
    simp only [reduceCtorEq, ↓reduceIte]
    exact .died holds

theorem serve_write_idle (shape : TableShape) (script : Script Call) {request : Request} (valid : request.Valid) (idle : node.engine = none) {key : Key}
    {value : Option Bytes} {timestamp : Nat} (writes : request.write = some (key, value, timestamp)) :
    serve shape request script node = (.silent, node) := by
  rw [(serve_eq_write valid writes script node).2, perform_idle idle]

/-- The empty directory. -/
theorem tracked_start (reads : ∀ key, accepts key none) : Tracked shape accepts Run.start.node := by
  refine Closed.tracked ⟨⟨0, ?_⟩, ?_, ?_, ?_⟩
  · intro id records found
    cases found
  · intro id records found
    cases found
  · intro _ id file found
    cases found
  · exact reads

end

end Engine

end Enigma
