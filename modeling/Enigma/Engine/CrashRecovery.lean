import Enigma.Engine.ClientRuns
import Enigma.Wal.TornSegment

/-! Crashes alone lose no acknowledged write and invent none, as long as the log is
one that its reader can read. A record of nearly 2^32 bytes is appended and
acknowledged, but its size wraps to nothing when it is read. -/

namespace Enigma

namespace Engine

open Prog

/-- No call fails; any call may be the last. -/
def CrashOnly (_ : Call) (fate : Fate) : Prop := fate ≠ .failed

theorem crashOnly_reliable : ¬ Fallible CrashOnly := by
  rintro ⟨kind, _, failed⟩
  exact failed rfl

theorem crashOnly_faults : WriteFaults CrashOnly := fun _ failed => absurd rfl failed

/-- The acknowledged writes, and among the others those that are kept. -/
def history (keep : Nat → Bool) (issues : List Issue) : List Entry :=
  (issues.zipIdx.filter fun numbered => numbered.1.acknowledged || keep numbered.2).map fun numbered =>
    (numbered.1.key, numbered.1.value)

theorem history_concat (keep : Nat → Bool) (issues : List Issue) (issue : Issue) :
    history keep (issues ++ [issue]) = history keep issues ++
      if issue.acknowledged || keep issues.length then [(issue.key, issue.value)] else [] := by
  cases kept : issue.acknowledged || keep issues.length <;> simp [history, List.zipIdx_append, kept]

/-- What is decided about later writes does not matter. -/
theorem history_congr {first second : Nat → Bool} {issues : List Issue}
    (same : ∀ index < issues.length, first index = second index) : history first issues = history second issues := by
  unfold history
  congr 1
  apply List.filter_congr
  intro numbered member
  have bound := (List.mem_zipIdx member).2.1
  rw [same numbered.2 (by omega)]

/-- The decision about one more write. -/
def decideAt (keep : Nat → Bool) (index : Nat) (kept : Bool) : Nat → Bool :=
  fun probe => if probe = index then kept else keep probe

theorem history_decideAt (keep : Nat → Bool) (issues : List Issue) (kept : Bool) :
    history (decideAt keep issues.length kept) issues = history keep issues := by
  apply history_congr
  intro index bound
  simp [decideAt, ne_of_lt bound]

/-- The engine, while it runs, answers from the history. -/
def ReadsHistory (shape : TableShape) (keep : Nat → Bool) (run : Run) : Prop :=
  ∀ engine, run.node.engine = some engine → ∀ key,
    getInternal (entryFormat shape) ⟨run.node.disk, engine⟩ key = .ok (Assoc.last? (history keep run.issues) key)

def readingOf (keep : Nat → Bool) (issues : List Issue) : Reading :=
  fun key value => value = Assoc.last? (history keep issues) key

section

variable {shape : TableShape} {keep : Nat → Bool} {run : Run}

theorem Tracked.readsHistory (tracked : Tracked shape (readingOf keep run.issues) run.node) : ReadsHistory shape keep run := by
  intro engine running key
  have durable := tracked.running engine running
  rw [getInternal_eq durable.toStocked key, durable.inMemory key]

theorem issued_quiet {request : Request} {answer : Answer} {node : Node} (quiet : request.write = none) :
    issued request answer node = none := by
  simp only [issued, quiet]

/-- What is read once a write is in. -/
def overwritten (accepts : Reading) (key : Key) (value : InternalValue) : Reading :=
  fun probe held => if probe = key then held = some value else accepts probe held

/-- What may be read while it is open whether a write is in. -/
def undecided (accepts : Reading) (key : Key) (value : InternalValue) : Reading :=
  fun probe held => accepts probe held ∨ probe = key ∧ held = some value

/-- A write that was cut off is in the directory or it is not. -/
theorem Closed.decided {accepts : Reading} {disk : Disk EntryFile} {key : Key} {value : InternalValue}
    (closed : Closed shape Filled (undecided accepts key value) disk) :
    Closed shape Filled (overwritten accepts key value) disk ∨ Closed shape Filled accepts disk := by
  by_cases present : diskView disk key = some value
  · left
    refine { closed with onDisk := ?_ }
    intro probe
    unfold overwritten
    split
    · rename_i same
      exact same ▸ present
    · rename_i different
      exact (closed.onDisk probe).resolve_right (fun reached => different reached.1)
  · right
    refine { closed with onDisk := ?_ }
    intro probe
    refine (closed.onDisk probe).resolve_right ?_
    rintro ⟨same, held⟩
    exact present (same ▸ held)

theorem readingOf_kept {issues : List Issue} {issue : Issue} (kept : (issue.acknowledged || keep issues.length) = true)
    (probe : Key) (held : Option InternalValue) (accepted : overwritten (readingOf keep issues) issue.key issue.value probe held) :
    readingOf keep (issues ++ [issue]) probe held := by
  rw [readingOf, history_concat, kept]
  simp only [↓reduceIte]
  rw [Assoc.last?_concat]
  unfold overwritten at accepted
  split at accepted
  · rename_i same
    rw [if_pos same, accepted]
  · rename_i different
    rw [if_neg different, accepted]

theorem readingOf_dropped {issues : List Issue} {issue : Issue}
    (dropped : (issue.acknowledged || keep issues.length) = false) :
    readingOf keep (issues ++ [issue]) = readingOf keep issues := by
  unfold readingOf
  rw [history_concat, dropped]
  simp

theorem readingOf_decideAt (issues : List Issue) (kept : Bool) :
    readingOf (decideAt keep issues.length kept) issues = readingOf keep issues := by
  unfold readingOf
  rw [history_decideAt]

/-- One request of a run without failing calls. What was decided about earlier
writes stands. -/
structure Continued (shape : TableShape) (keep : Nat → Bool) (run : Run) (request : Request) (script : Script Call)
    (later : Nat → Bool) : Prop where
  stands : ∀ index < run.issues.length, later index = keep index
  tracked : Tracked shape (readingOf later (advance shape run (request, script)).issues)
    (advance shape run (request, script)).node
  tight : Tightened (advance shape run (request, script)).node
  succeeds : ∀ error, answerOf shape run (request, script) = .error error → ∃ key timestamp, request = .put key [] timestamp

variable {request : Request} {script : Script Call}

theorem continued_unissued {after : Node} {answer : Answer} (tight : Tightened run.node)
    (served : Served shape (readingOf keep run.issues) CrashOnly request run.node answer after) (atomic : shape.Atomic)
    (outcome : serve shape request script run.node = (answer, after))
    (none : issued request answer run.node = none) : Continued shape keep run request script keep where
  stands := fun _ _ => rfl
  tracked := by simpa [advance, answerOf, outcome, none] using served.tracked
  tight := by simpa [advance, outcome] using served.tight crashOnly_reliable tight
  succeeds := by simpa [answerOf, outcome] using served.succeeds crashOnly_reliable atomic

theorem continued_acknowledged {after : Node} {key : Key} {value : InternalValue}
    (outcome : serve shape request script run.node = (.ok, after))
    (issue : issued request .ok run.node = some ⟨key, value, true⟩)
    (tracked : Tracked shape (overwritten (readingOf keep run.issues) key value) after) (tight : Tightened after) :
    Continued shape keep run request script keep where
  stands := fun _ _ => rfl
  tracked := by
    simp only [advance, answerOf, outcome, issue, Option.toList_some]
    refine tracked.mono fun probe held accepted => ?_
    exact readingOf_kept (by simp) probe held accepted
  tight := by simpa [advance, outcome] using tight
  succeeds := by simp [answerOf, outcome]

theorem continued_lost {disk : Disk EntryFile} {key : Key} {value : InternalValue}
    (outcome : serve shape request script run.node = (.silent, ⟨disk, none⟩))
    (issue : issued request .silent run.node = some ⟨key, value, false⟩)
    (closed : Closed shape Filled (undecided (readingOf keep run.issues) key value) disk) :
    ∃ later, Continued shape keep run request script later := by
  have ends : ∀ kept, Closed shape Filled (readingOf (decideAt keep run.issues.length kept)
      (run.issues ++ [⟨key, value, false⟩])) disk →
      Continued shape keep run request script (decideAt keep run.issues.length kept) := by
    intro kept holds
    refine ⟨?_, ?_, ?_, ?_⟩
    · intro index bound
      simp [decideAt, ne_of_lt bound]
    · simp only [advance, answerOf, outcome, issue, Option.toList_some]
      exact holds.tracked
    · simpa [advance, outcome] using tightened_none disk
    · simp [answerOf, outcome]
  rcases closed.decided with kept | dropped
  · rw [← readingOf_decideAt run.issues true] at kept
    refine ⟨_, ends true (kept.mono fun probe held accepted => ?_)⟩
    exact readingOf_kept (by simp [decideAt]) probe held accepted
  · rw [← readingOf_decideAt run.issues false] at dropped
    refine ⟨_, ends false ?_⟩
    rwa [readingOf_dropped (by simp [decideAt])]

/-- What a write leaves, whichever way it ends. -/
theorem advance_write (atomic : shape.Atomic) (tracked : Tracked shape (readingOf keep run.issues) run.node)
    (tight : Tightened run.node) (valid : request.Valid) (allowed : Allowed CrashOnly script)
    (safe : FlushesTight request run.node) {key : Key} {value : Option Bytes} {timestamp : Nat}
    (writes : request.write = some (key, value, timestamp)) {engine : Dazzle} (running : run.node.engine = some engine) :
    ∃ later, Continued shape keep run request script later := by
  let stored := writtenValue ⟨run.node.disk, engine⟩ value
  have served := serve_write crashOnly_faults allowed tracked valid safe writes running
    (overwritten (readingOf keep run.issues) key stored) (undecided (readingOf keep run.issues) key stored)
    (fun probe held different accepted => by simpa [overwritten, different] using accepted)
    (by simp [overwritten, stored]) (fun _ _ accepted => .inl accepted)
    (fun probe held accepted => by
      unfold overwritten at accepted
      split at accepted
      · rename_i same
        exact .inr ⟨same, accepted⟩
      · exact .inl accepted)
  have issue : ∀ answer, issued request answer run.node = some ⟨key, stored, answer == .ok⟩ := by
    intro answer
    simp [issued, writes, running, stored, writtenValue]
  rcases outcome : serve shape request script run.node with ⟨answer, after⟩
  rw [outcome] at served
  cases answer with
  | ok =>
    have settled := served.tracked
    simp only [↓reduceIte] at settled
    exact ⟨keep, continued_acknowledged outcome (issue .ok) settled (served.tight crashOnly_reliable tight)⟩
  | error error =>
    obtain ⟨other, time, same⟩ := served.succeeds crashOnly_reliable atomic error rfl
    simp [same, Request.write] at writes
  | silent =>
    have dead : after.engine = none := by
      rw [(serve_eq_write valid writes script run.node).2] at outcome
      have silent := perform_silent (congrArg Prod.fst outcome)
      rwa [outcome] at silent
    have unsettled := served.tracked.closed
    simp only [reduceCtorEq, ↓reduceIte] at unsettled
    obtain ⟨disk, running⟩ := after
    cases dead
    exact continued_lost outcome (issue .silent) unsettled

theorem advance_crashOnly (atomic : shape.Atomic) (tracked : Tracked shape (readingOf keep run.issues) run.node)
    (tight : Tightened run.node) (valid : request.Valid) (allowed : Allowed CrashOnly script)
    (whole : FindsWhole request run.node) : ∃ later, Continued shape keep run request script later := by
  have safe := tight.flushesTight request
  cases writes : request.write with
  | none =>
    have served := serve_quiet crashOnly_faults allowed tracked valid writes safe whole
    exact ⟨keep, continued_unissued tight served atomic rfl (issued_quiet writes)⟩
  | some write =>
    obtain ⟨key, value, timestamp⟩ := write
    cases running : run.node.engine with
    | none =>
      have idle := serve_write_idle shape script valid running writes
      have none : issued request .silent run.node = none := by simp [issued, writes, running]
      exact ⟨keep, continued_unissued tight (.unchanged tracked) atomic idle none⟩
    | some engine => exact advance_write atomic tracked tight valid allowed safe writes running

/-- A run of valid requests in which calls may be cut off but never fail. -/
def CrashRun (events : List (Request × Script Call)) : Prop :=
  ∀ event ∈ events, event.1.Valid ∧ Allowed CrashOnly event.2

/-- What is claimed of one request of a run. -/
def Exact (shape : TableShape) (keep : Nat → Bool) (run : Run) (event : Request × Script Call) : Prop :=
  ReadsHistory shape keep (advance shape run event) ∧
    ∀ error, answerOf shape run event = .error error → ∃ key timestamp, event.1 = .put key [] timestamp

theorem Exact.congr {later : Nat → Bool} {event : Request × Script Call} (exact : Exact shape keep run event)
    (same : ∀ index < (advance shape run event).issues.length, later index = keep index) :
    Exact shape later run event := by
  refine ⟨?_, exact.2⟩
  intro engine running key
  rw [history_congr same]
  exact exact.1 engine running key

/-- From any reached state on, one decision serves every later request. -/
theorem crashRun_exact (atomic : shape.Atomic) {events : List (Request × Script Call)} (crashes : CrashRun events)
    (whole : OpensWhole shape run events) (tracked : Tracked shape (readingOf keep run.issues) run.node)
    (tight : Tightened run.node) :
    ∃ later : Nat → Bool, (∀ index < run.issues.length, later index = keep index) ∧
      ∀ before event after, events = before ++ event :: after →
        Exact shape later (before.foldl (advance shape) run) event := by
  induction events generalizing run keep with
  | nil =>
    refine ⟨keep, fun _ _ => rfl, ?_⟩
    intro before event after same
    simp at same
  | cons first rest ih =>
    obtain ⟨valid, allowed⟩ := crashes first (by simp)
    obtain ⟨next, continued⟩ := advance_crashOnly atomic tracked tight valid allowed whole.1
    obtain ⟨later, stands, each⟩ := ih (fun event member => crashes event (by simp [member])) whole.2
      continued.tracked continued.tight
    have longer : run.issues.length ≤ (advance shape run first).issues.length := by simp [advance]
    refine ⟨later, ?_, ?_⟩
    · intro index bound
      rw [stands index (bound.trans_le longer), continued.stands index bound]
    · intro before event after same
      cases before with
      | nil =>
        simp only [List.nil_append, List.cons.injEq] at same
        obtain ⟨here, _⟩ := same
        subst here
        exact Exact.congr ⟨continued.tracked.readsHistory, continued.succeeds⟩ stands
      | cons other before =>
        simp only [List.cons_append, List.cons.injEq] at same
        obtain ⟨here, split⟩ := same
        subst here
        exact each before event after split

end

/-- A flush that is cut off once its table is there, and the next open. -/
def cutFlush : List (Request × Script Call) :=
  [(.open restingConfig, .calm), (.put [1] [10] 0, .calm), (.flush, .only 3 .open .crashed), (.open restingConfig, .calm)]

/-- A policy that never picks, and room for a large value in memory. -/
def roomyConfig : Config := ⟨2 ^ 33, restingConfig.policy⟩

/-- A value is put, and the process dies. -/
def putAndDie (value : Bytes) : List (Request × Script Call) :=
  [(.open roomyConfig, .calm), (.put [1] value 0, .calm), (.crash, .calm), (.open roomyConfig, .calm)]

/-- A recovery whose replay gets nothing out of the only segment. -/
theorem recover_unread {record : WalRecord} (unread : (readBack [record]).records = []) :
    (recover (entryFormat .plain)).run .calm (bootWorld roomyConfig ⟨.empty, SortedMap.empty.insert 1 [record]⟩ []) =
      (.ok 0, .calm,
        ⟨⟨.empty, SortedMap.empty.insert 2 []⟩, { bootstrap roomyConfig [1] [] [] with lsn := 2 }⟩) := by
  generalize start : bootWorld roomyConfig ⟨.empty, SortedMap.empty.insert 1 [record]⟩ [] = world
  have segments : oldWalFiles world = [(1, [record])] := by subst start; rfl
  have nothing : foundRecords [(1, [record])] = [] := by simp [foundRecords, unread]
  have replays := replaySegments_run [(1, [record])] 0 world
  rw [nothing] at replays
  rw [recover, bind_run_ok (getState_run _ _)]
  change (if oldWalFiles world = [] then _ else _ : Prog Call Error (World EntryFile) Nat).run .calm world = _
  rw [segments, if_neg (by simp)]
  change (replaySegments (oldWalFiles world) 0 >>= _).run .calm world = _
  rw [segments, bind_run_ok replays]
  subst start
  rfl

theorem open_unread {record : WalRecord} (unread : (readBack [record]).records = []) :
    reopen .plain roomyConfig .calm ⟨⟨.empty, SortedMap.empty.insert 1 [record]⟩, none⟩ =
      (.ok, ⟨⟨.empty, SortedMap.empty.insert 2 []⟩, some { bootstrap roomyConfig [1] [] [] with lsn := 2 }⟩) := by
  have opens : (Engine.open (entryFormat .plain) roomyConfig).run .calm ⟨.empty, SortedMap.empty.insert 1 [record]⟩ =
      (.ok { bootstrap roomyConfig [1] [] [] with lsn := 2 }, .calm, ⟨.empty, SortedMap.empty.insert 2 []⟩) :=
    open_run rfl (recover_unread unread)
  simp only [reopen, opens]

/-- A value for which there is room in memory. -/
theorem put_unflushed {config : Config} {value : Bytes} (filled : value ≠ []) (room : value.length + 1 < config.memtableSize) :
    perform (put (entryFormat .plain) [1] value 0) .calm
        ⟨⟨.empty, SortedMap.empty.insert 1 []⟩, some (bootstrap config [] [] [])⟩ =
      (.ok, ⟨⟨.empty, SortedMap.empty.insert 1 [⟨.putRow, 0, 1, [1], value⟩]⟩,
        some (written (F := EntryFile) ⟨.empty, bootstrap config [] [] []⟩ [1] (some value) 0).engine⟩) := by
  have size : (written (F := EntryFile) ⟨.empty, bootstrap config [] [] []⟩ [1] (some value) 0).engine.activeMemtable.bytes =
      0 + (value.length + 1) := rfl
  have run := write_run (entryFormat .plain) benign_calm
    ⟨⟨.empty, SortedMap.empty.insert 1 []⟩, bootstrap config [] [] []⟩ [1] (some value) 0
  have small : (written (F := EntryFile) ⟨⟨.empty, SortedMap.empty.insert 1 []⟩, bootstrap config [] [] []⟩ [1] (some value)
      0).engine.activeMemtable.shouldFlush = false := by
    refine decide_eq_false ?_
    change ¬ config.memtableSize ≤ 0 + (value.length + 1)
    omega
  rw [small] at run
  have puts : (put (entryFormat .plain) [1] value 0).run .calm
      ⟨⟨.empty, SortedMap.empty.insert 1 []⟩, bootstrap config [] [] []⟩ = (.ok (), .calm,
        written ⟨⟨.empty, SortedMap.empty.insert 1 []⟩, bootstrap config [] [] []⟩ [1] (some value) 0) := by
    rw [put, if_neg filled]
    exact run
  simp only [perform, puts]
  rfl

/-- The value whose record is the first of a size that the reader wraps. -/
theorem large_unread {value : Bytes} (size : value.length = 2 ^ 32 - 34) :
    (readBack [⟨.putRow, 0, 1, [1], value⟩]).records = [] := by
  have body := length_walRecordBody ⟨.putRow, 0, 1, [1], value⟩
  simp only [size, List.length_singleton] at body
  exact readBack_large ⟨Nat.two_pow_pos 64, Nat.one_lt_two_pow (by decide), by omega⟩ (by omega)

theorem runClient_putAndDie {value : Bytes} (size : value.length = 2 ^ 32 - 34) : runClient .plain (putAndDie value) =
    ⟨[⟨[1], ⟨value, false, 1⟩, true⟩],
      ⟨⟨.empty, SortedMap.empty.insert 2 []⟩, some { bootstrap roomyConfig [1] [] [] with lsn := 2 }⟩⟩ := by
  have filled : value ≠ [] := by
    rintro rfl
    simp at size
  have room : value.length + 1 < roomyConfig.memtableSize := by
    rw [size]
    decide
  have puts := put_unflushed filled room
  have opens := open_unread (large_unread size)
  have opened : advance .plain .start (.open roomyConfig, .calm) =
      ⟨[], ⟨⟨.empty, SortedMap.empty.insert 1 []⟩, some (bootstrap roomyConfig [] [] [])⟩⟩ := rfl
  simp only [runClient, putAndDie, List.foldl_cons, List.foldl_nil, opened]
  simp only [advance, answerOf, serve, puts, opens, issued, Request.write, filled, ↓reduceIte]
  rfl

end Engine

end Enigma
