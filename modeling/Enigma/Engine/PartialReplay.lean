import Enigma.Engine.AnyFaults

/-! Recovery when reads fail. The replay loop takes every failed read for the end
of its segment, so what reaches the memtable is part of the log; the flush and
the unlinking go on as if it were all. -/

namespace Enigma

namespace Engine

open Prog

/-- The script for the calls after some reads, of which none follows a failed one. -/
def afterReads : Nat → Script Call → Script Call
  | 0, script => script
  | count + 1, script => if script 0 .read = .done then afterReads count script.tail else script.tail

/-- The records of a segment that its replay loop gets to, and the script for the
calls after the loop. -/
def heardSegment (lastReads : Nat) : Script Call → List WalRecord → List WalRecord × Script Call
  | script, [] => ([], afterReads lastReads script)
  | script, record :: later =>
    if script 0 .read = .done then
      if script 1 .read = .done then
        (record :: (heardSegment lastReads script.tail.tail later).1, (heardSegment lastReads script.tail.tail later).2)
      else ([], script.tail.tail)
    else ([], script.tail)

/-- The records that a replay gets to, in order, and the script for the calls after
it. Each segment is opened first. -/
def hearing : Script Call → List (Nat × List WalRecord) → List WalRecord × Script Call
  | script, [] => ([], script)
  | script, (_, appended) :: later =>
    let segment := heardSegment (readBack appended).lastReads script.tail (readBack appended).records
    (segment.1 ++ (hearing segment.2 later).1, (hearing segment.2 later).2)

/-- The records that a replay gets to. -/
def heard (script : Script Call) (segments : List (Nat × List WalRecord)) : List WalRecord := (hearing script segments).1

theorem heardSegment_sublist (lastReads : Nat) (script : Script Call) (records : List WalRecord) :
    (heardSegment lastReads script records).1.Sublist records := by
  induction records generalizing script with
  | nil => simp [heardSegment]
  | cons record later ih =>
    rw [heardSegment]
    split
    · split
      · exact (ih script.tail.tail).cons_cons record
      · exact List.nil_sublist _
    · exact List.nil_sublist _

theorem heard_sublist (script : Script Call) (segments : List (Nat × List WalRecord)) :
    (heard script segments).Sublist (foundRecords segments) := by
  induction segments generalizing script with
  | nil => exact List.Sublist.refl _
  | cons segment later ih =>
    rw [heard, hearing, foundRecords, List.flatMap_cons]
    exact (heardSegment_sublist _ _ _).append (ih _)

section

variable {F : Type} {world after : World F} {script rest : Script Call} {found : Nat}

theorem lastReads_returned {count : Nat} {answer : Except Error Unit}
    (run : (attempt (forEach (List.replicate count .read) passive)).run script world = (.ok answer, rest, after)) :
    rest = afterReads count script ∧ after = world := by
  induction count generalizing script answer with
  | zero =>
    rw [List.replicate_zero, forEach] at run
    cases run
    exact ⟨rfl, rfl⟩
  | succ count ih =>
    rw [List.replicate_succ, forEach] at run
    rcases attempt_returned run with ⟨_, reads, same⟩ | ⟨_, stopped, same⟩
    · obtain ⟨_, _, _, first, others⟩ := bind_returned reads
      obtain ⟨done, tail, reached⟩ := call_returned first
      subst tail reached
      rw [afterReads, if_pos done]
      exact ih (attempt_run_ok others)
    · rcases call_bind_refused stopped with ⟨failed, tail, reached⟩ | ⟨done, stopped⟩
      · rw [afterReads, if_neg (by simp [failed])]
        exact ⟨tail, reached⟩
      · rw [afterReads, if_pos done]
        exact ih (attempt_run_err stopped)

theorem replaySegment_returned {lastReads : Nat} {records : List WalRecord} {highest : Nat}
    (run : (replaySegment lastReads records highest).run script world = (.ok found, rest, after)) :
    rest = (heardSegment lastReads script records).2 ∧
      after = replayedWorld world (heardSegment lastReads script records).1 := by
  induction records generalizing highest script world with
  | nil =>
    obtain ⟨answer, left, between, reads, later⟩ := bind_returned run
    cases later
    exact lastReads_returned reads
  | cons record later ih =>
    obtain ⟨answer, left, between, reads, continues⟩ := bind_returned run
    rcases attempt_returned reads with ⟨_, both, same⟩ | ⟨_, stopped, same⟩
    · obtain ⟨_, _, _, header, body⟩ := bind_returned both
      obtain ⟨first, tail, reached⟩ := call_returned header
      subst tail reached
      obtain ⟨second, tail, reached⟩ := call_returned body
      subst tail reached same
      rw [bind_run_ok (onEngine_run _ _ _)] at continues
      have rest := ih continues
      have ready : script 1 .read = .done := second
      simp only [heardSegment, first, ready, ↓reduceIte]
      exact rest
    · subst same
      cases continues
      rcases call_bind_refused stopped with ⟨failed, tail, reached⟩ | ⟨first, stopped⟩
      · simp only [heardSegment, failed, reduceCtorEq, ↓reduceIte]
        exact ⟨tail, reached⟩
      · obtain ⟨failed, tail, reached⟩ := call_refused stopped
        have stops : script 1 .read = .failed := failed
        simp only [heardSegment, first, stops, reduceCtorEq, ↓reduceIte]
        exact ⟨tail, reached⟩

/-- A replay that returns has put exactly what it got to into the memtable. -/
theorem replaySegments_returned {segments : List (Nat × List WalRecord)} {highest : Nat}
    (run : (replaySegments segments highest).run script world = (.ok found, rest, after)) :
    rest = (hearing script segments).2 ∧ after = replayedWorld world (heard script segments) := by
  induction segments generalizing highest script world with
  | nil =>
    cases run
    exact ⟨rfl, rfl⟩
  | cons segment later ih =>
    obtain ⟨_, _, _, opens, continues⟩ := bind_returned run
    obtain ⟨_, tail, same⟩ := call_returned opens
    subst tail same
    obtain ⟨_, _, _, replays, continues⟩ := bind_returned continues
    obtain ⟨tail, same⟩ := replaySegment_returned replays
    subst tail same
    obtain ⟨left, reached⟩ := ih continues
    rw [left, reached]
    simp only [heard, hearing, replayedWorld, List.foldl_append, and_self]

variable (format : TableFormat F)

/-- Recovery up to the publication of its table. No segment is unlinked yet. -/
def replayAndPublish (segments : List (Nat × List WalRecord)) : Prog Call Error (World F) (Nat × Nat) := do
  let highest ← replaySegments segments 0
  let newWalSeq ← publishMemtable format
  return (highest, newWalSeq)

/-- The end of a recovery: the old segments go, and sequences continue. -/
def cleanUp (segments : List (Nat × List WalRecord)) (highest : Nat) : Prog Call Error (World F) Nat := do
  forEach segments fun segment => onDisk .fsRemove (Disk.dropWal segment.1)
  onEngine fun engine => { engine with lsn := max engine.lsn highest + 1 }
  return highest

/-- Recovery from the publication of its table on. -/
def settle (segments : List (Nat × List WalRecord)) (found : Nat × Nat) : Prog Call Error (World F) Nat := do
  retireWal found.2
  let _ ← attempt (doCompactWork format)
  cleanUp segments found.1

variable {format}

theorem recover_eq (script : Script Call) (world : World F) : (recover format).run script world =
    (if oldWalFiles world = [] then return 0
    else do
      let highest ← replaySegments (oldWalFiles world) 0
      flushRecovered format
      cleanUp (oldWalFiles world) highest).run script world := rfl

/-- The three parts of a recovery that returns. -/
theorem recover_returned (present : oldWalFiles world ≠ [])
    (run : (recover format).run script world = (.ok found, rest, after)) : ∃ highest left flushed between,
      (replaySegments (oldWalFiles world) 0).run script world =
        (.ok highest, left, replayedWorld world (heard script (oldWalFiles world))) ∧
      (flushRecovered format).run left (replayedWorld world (heard script (oldWalFiles world))) =
        (.ok (), flushed, between) ∧
      (cleanUp (oldWalFiles world) highest).run flushed between = (.ok found, rest, after) := by
  rw [recover_eq, if_neg present] at run
  obtain ⟨highest, left, replayed, replays, continues⟩ := bind_returned run
  obtain ⟨_, same⟩ := replaySegments_returned replays
  subst same
  obtain ⟨_, flushed, between, flushes, cleans⟩ := bind_returned continues
  exact ⟨highest, left, flushed, between, replays, flushes, cleans⟩

variable (format) in
/-- A flush from the publication of its table on. -/
def settleFlush (newWalSeq : Nat) : Prog Call Error (World F) Unit := do
  retireWal newWalSeq
  let _ ← attempt (doCompactWork format)
  return ()

theorem settle_eq (segments : List (Nat × List WalRecord)) (highest newWalSeq : Nat) :
    settle format segments (highest, newWalSeq) = (do
      settleFlush format newWalSeq
      cleanUp segments highest) := by
  simp only [settle, settleFlush, bind_bind]
  rfl

/-- A flush in recovery goes through the publication of its table. -/
theorem flushRecovered_returned (sized : 0 < world.engine.activeMemtable.approximateSize)
    (filled : world.engine.activeMemtable.count ≠ 0)
    (run : (flushRecovered format).run script world = (.ok (), rest, after)) : ∃ newWalSeq left between,
      (publishMemtable format).run script world = (.ok newWalSeq, left, between) ∧
      (settleFlush format newWalSeq).run left between = (.ok (), rest, after) := by
  rw [flushRecovered, bind_run_ok (getState_run _ _), if_pos sized, flush, bind_run_ok (getState_run _ _),
    if_neg filled, flushMemtable_eq, bind_bind] at run
  exact bind_returned run

end

theorem Replayed.filled_of_sized {memtable : Memtable} {records : List WalRecord} (replayed : Replayed memtable records)
    (sized : 0 < memtable.approximateSize) : memtable.count ≠ 0 := by
  intro zero
  have unsized : memtable.approximateSize = 0 := by
    rw [Memtable.approximateSize_eq_zero_iff replayed.accounted]
    intro key value found
    exact absurd (found.symm.trans (SortedMap.size_eq_zero_iff.mp zero key)) (by simp)
  omega

section

variable {shape : TableShape} {world after : World EntryFile} {script rest : Script Call}

theorem publishMemtable_returned (quiet : world.engine.versionSet.Quiet)
    (filled : world.engine.activeMemtable.count ≠ 0) {newWalSeq : Nat}
    (run : (publishMemtable (entryFormat shape)).run script world = (.ok newWalSeq, rest, after)) :
    ∃ (versionSet : VersionSet) (info : TableInfo), versionSet.Quiet ∧ versionSet.currentVersion.files =
      world.engine.version.files.insert world.engine.nextSstSeq (tableMeta world.engine.nextSstSeq info) ∧
        newWalSeq = world.engine.nextWalSeq ∧ after = publishedWorld shape world versionSet := by
  have allowed : Allowed (fun _ _ => True) script := fun _ _ => trivial
  let post : Post Error (World EntryFile) Nat := {
    ok := fun newWalSeq after => ∃ (versionSet : VersionSet) (info : TableInfo), versionSet.Quiet ∧
      versionSet.currentVersion.files =
        world.engine.version.files.insert world.engine.nextSstSeq (tableMeta world.engine.nextSstSeq info) ∧
      newWalSeq = world.engine.nextWalSeq ∧ after = publishedWorld shape world versionSet
    err := fun _ _ => True
    crash := fun _ => True }
  have ends : wp (fun _ _ => True) (publishMemtable (entryFormat shape)) post world :=
    wp_publishMemtable quiet filled (fun versionSet info quiet files => ⟨versionSet, info, quiet, files, rfl, rfl⟩)
      (fun _ _ _ _ => trivial) (fun _ _ _ => trivial)
  exact wp_run ends allowed run

/-- The segments that recovery has replayed are still there when its table is
published. -/
theorem publishedWorld_segments (records : List WalRecord) (versionSet : VersionSet) {segment : Nat × List WalRecord}
    (old : segment ∈ oldWalFiles world) :
    (publishedWorld shape (replayedWorld world records) versionSet).disk.wal.find? segment.1 = some segment.2 := by
  obtain ⟨member, below⟩ := List.mem_filter.mp old
  have other : segment.1 ≠ world.engine.nextWalSeq := ne_of_lt (of_decide_eq_true below)
  simp only [publishedWorld, replayedWorld, Disk.openWal_find?, other, ↓reduceIte]
  exact SortedMap.find?_eq_some_iff.mpr member

theorem publishedWorld_table (versionSet : VersionSet) :
    entriesAt (publishedWorld shape world versionSet).disk world.engine.nextSstSeq =
      world.engine.activeMemtable.entries.bindings := by
  simp [entriesAt, publishedWorld, flushedFile_eq, EntryFile.entries]

end

end Engine

end Enigma
