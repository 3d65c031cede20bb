import Enigma.Engine.CompactionFaults

/-! Flushes and compaction tasks that stop before their version edit. `open`
publishes every table file it finds, so what matters is the file they leave: an
incomplete one makes `open` fail, and a complete output of a compaction that left
newer tables out shadows them. -/

namespace Enigma

namespace Engine

open Prog

inductive Work where
  | flush
  | compaction (inputs : List SSTableId) (canDropTombstone : Bool)

namespace Work

/-- The work, and whether it published its table. A compaction takes its output
id as `do_compact_work` and `compact_now` do. -/
def prog (format : TableFormat EntryFile) : Work → Prog Call Error (World EntryFile) Bool
  | .flush => do
    Engine.flush format
    return true
  | .compaction inputs canDropTombstone => do
    let outputId ← mintSstId
    let published ← runTask format ⟨inputs, outputId, canDropTombstone⟩
    return published.isSome

/-- A compaction takes some of the live tables. -/
def Over (world : World EntryFile) : Work → Prop
  | .flush => True
  | .compaction inputs _ => inputs ≠ [] ∧ ∀ id ∈ inputs, id ∈ world.engine.version.files.keys

end Work

/-- Faults that stop the work before its version edit: unlinks come after it, and
so does the removal of the old segment, before which the process may still die;
a failed block read does not stop a compaction. -/
def EarlyFaults : Call → Fate → Prop
  | .unlink, fate => fate = .done
  | .fsRemove, fate => fate ≠ .failed
  | .readBlock _ _, fate => fate ≠ .failed
  | _, _ => True

/-- For every key that the output would carry and the log has no record of, it
shows what the newest live table shows. -/
def NothingShadowed (shape : TableShape) (world : World EntryFile) (inputs : List SSTableId) (canDropTombstone : Bool) : Prop :=
  ∀ entry ∈ mergedEntries shape world.disk inputs canDropTombstone, loggedValue world.disk entry.1 = none →
    entry.2.visible = ((liveLayers world).lookup entry.1).bind InternalValue.visible

instance (shape : TableShape) (world : World EntryFile) (inputs : List SSTableId) (canDropTombstone : Bool) :
    Decidable (NothingShadowed shape world inputs canDropTombstone) :=
  inferInstanceAs (Decidable (∀ entry ∈ mergedEntries shape world.disk inputs canDropTombstone, _))

/-- Where the work may stop without harm: its table's file is not there yet, or
it is complete and, for a compaction, shadows nothing. -/
def HarmlessStop (shape : TableShape) (world : World EntryFile) (work : Work) (disk : Disk EntryFile) : Prop :=
  match disk.sst.find? world.engine.nextSstSeq, work with
  | none, _ => True
  | some (.torn _), _ => False
  | some (.whole _ _), .flush => True
  | some (.whole _ _), .compaction inputs canDropTombstone => NothingShadowed shape world inputs canDropTombstone

section

variable {shape : TableShape} {world : World EntryFile}

/-- A table in the directory that is incomplete is the one that was left over. -/
theorem Staged.cases (undisturbed : Undisturbed shape world) {estimatedKeys : Nat} {entries : List Entry}
    {disk : Disk EntryFile} (left : Staged shape world estimatedKeys entries disk) (positive : estimatedKeys ≠ 0) :
    (disk.sst.find? world.engine.nextSstSeq = none ∧ disk.sst = world.disk.sst ∧ AllWhole disk) ∨
    (∃ answer, disk.sst.find? world.engine.nextSstSeq = some (.torn answer)) ∨
    (disk.sst = world.disk.sst.insert world.engine.nextSstSeq (.whole estimatedKeys entries) ∧ AllWhole disk) := by
  rcases left with same | ⟨file, stage, same⟩
  · left
    have fresh : world.disk.sst.find? world.engine.nextSstSeq = none := by
      apply SortedMap.find?_eq_none_iff.mpr
      intro member
      exact lt_irrefl _ (undisturbed.durable.numbered _ member)
    refine ⟨by rw [same, fresh], same, ?_⟩
    intro id file found
    exact undisturbed.complete id file (same ▸ found)
  · right
    rcases entryFormat_stage shape stage with ⟨answer, torn⟩ | whole
    · exact .inl ⟨answer, by rw [same, torn]; simp⟩
    · right
      subst whole
      refine ⟨same, ?_⟩
      intro id file found
      rw [same, SortedMap.find?_insert] at found
      split at found
      · cases found
        exact ⟨_, _, rfl, positive⟩
      · exact undisturbed.complete id file found

theorem not_reopensSame_torn {disk : Disk EntryFile} {id : SSTableId} {answer : Error}
    (torn : disk.sst.find? id = some (.torn answer)) (config : Config) : ¬ ReopensSame shape config world disk := by
  rintro ⟨engine, after, opens, _⟩
  have rejected : (entryFormat shape).create (.torn answer) = .error answer := rfl
  obtain ⟨error, failed⟩ := open_rejected torn rejected config
  rw [failed] at opens
  cases opens

/-- A stopped flush leaves a directory that says what the engine shows. -/
theorem flush_stopped (undisturbed : Undisturbed shape world) (fits : ∀ record ∈ walRecords world.disk, record.Fits)
    {script : Script Call} (allowed : Allowed EarlyFaults script)
    (stopped : ((Work.flush.prog (entryFormat shape)).run script world).1 ≠ .ok true) :
    world.engine.activeMemtable.count ≠ 0 ∧
      Closed shape WalRecord.Fits (fun key value => value = view world key)
        ((Work.flush.prog (entryFormat shape)).run script world).2.2.disk ∧
      Staged shape world world.engine.activeMemtable.count world.engine.activeMemtable.entries.bindings
        ((Work.flush.prog (entryFormat shape)).run script world).2.2.disk := by
  by_cases empty : world.engine.activeMemtable.count = 0
  · refine absurd ?_ stopped
    rw [Work.prog, bind_run_ok (flush_empty empty script)]
    rfl
  · have flushable := (undisturbed.durable.relog fits).toFlushable
    have holds : wp EarlyFaults (Work.flush.prog (entryFormat shape))
        ⟨fun published _ => published = true,
          fun _ after => Closed shape WalRecord.Fits (fun key value => value = view world key) after.disk ∧
            Staged shape world world.engine.activeMemtable.count world.engine.activeMemtable.entries.bindings after.disk,
          fun after => Closed shape WalRecord.Fits (fun key value => value = view world key) after.disk ∧
            Staged shape world world.engine.activeMemtable.count world.engine.activeMemtable.entries.bindings after.disk⟩
        world := by
      refine wp_bind (wp_flush_filled (by simp [EarlyFaults]) flushable empty ?_ ?_ ?_)
      · exact fun _ _ _ _ => wp_pure rfl
      · intro error after _ unflushed
        exact ⟨flushable.stopped_closed empty unflushed, unflushed.staged⟩
      · exact fun after closed staged => ⟨closed, staged⟩
    refine ⟨empty, ?_⟩
    rcases run : (Work.flush.prog (entryFormat shape)).run script world with ⟨exit, rest, after⟩
    have ends := wp_run holds allowed run
    rw [run] at stopped
    cases exit with
    | ok published => exact absurd (congrArg Exit.ok ends) stopped
    | err error => exact ends
    | crash => exact ends

/-- A stopped compaction leaves the log and every table as they were. -/
theorem compaction_stopped (undisturbed : Undisturbed shape world) {inputs : List SSTableId} {full : Bool}
    (applies : (Work.compaction inputs full).Over world) {script : Script Call} (allowed : Allowed EarlyFaults script)
    (stopped : (((Work.compaction inputs full).prog (entryFormat shape)).run script world).1 ≠ .ok true) :
    (((Work.compaction inputs full).prog (entryFormat shape)).run script world).2.2.disk.wal = world.disk.wal ∧
      Staged shape world (possibleKeys world.disk inputs) (mergedEntries shape world.disk inputs full)
        (((Work.compaction inputs full).prog (entryFormat shape)).run script world).2.2.disk := by
  have readable : Readable (minted world).disk inputs := undisturbed.toStocked.readable applies.2
  let leaves : World EntryFile → Prop := fun after => after.disk.wal = world.disk.wal ∧
    Staged shape world (possibleKeys world.disk inputs) (mergedEntries shape world.disk inputs full) after.disk
  have writing : ∀ after, WriteStopped shape (minted world) world.engine.nextSstSeq (possibleKeys world.disk inputs)
      (mergedEntries shape world.disk inputs full) after → leaves after := by
    intro after reached
    rcases reached with same | ⟨file, stage, same⟩
    · subst same
      exact ⟨rfl, .inl rfl⟩
    · subst same
      exact ⟨rfl, .inr ⟨file, stage, rfl⟩⟩
  let early : Post Error (World EntryFile) Bool :=
    ⟨fun published after => published = false → leaves after, fun _ after => leaves after, leaves⟩
  have holds : wp EarlyFaults ((Work.compaction inputs full).prog (entryFormat shape)) early world := by
    refine wp_bind (wp_of_run (fun script => mintSstId_run script world) ?_)
    refine wp_bind (wp_bind (wp_compact (fun _ _ failed => failed rfl) readable _ full ?_
      (fun _ after _ reached => writing after reached) (fun after _ reached => writing after reached)))
    let output : EntryFile := .whole (possibleKeys world.disk inputs) (mergedEntries shape world.disk inputs full)
    let stored : World EntryFile := { minted world with disk := world.disk.putTable world.engine.nextSstSeq output }
    have whole : leaves stored := ⟨rfl, .inr ⟨_, stage_complete _ _, rfl⟩⟩
    -- once the output is written, every error of the installation leaves the same state
    have given_up : ∀ error : Error,
        wp EarlyFaults (if error.isStaleVersion then pure none else fail error : Prog _ _ _ (Option SSTableId))
          ⟨fun published after => wp EarlyFaults (pure published.isSome) early after, early.err, early.crash⟩ stored := by
      intro error
      split
      · exact wp_pure (wp_pure fun _ => whole)
      · exact wp_fail whole
    refine wp_bind (wp_attempt (wp_bind (wp_readTable ?_ (fun error _ => given_up error) (fun _ => whole))))
    intro file info _ _
    refine wp_call_bind (wp_getState_bind ?_) (fun _ => given_up _) (fun _ => whole)
    split
    · exact wp_fail (given_up _)
    · refine wp_bind (wp_of_run (fun script => onEngine_run _ script _) (wp_reclaim _ ?_ ?_))
      · exact fun _ _ => wp_pure (wp_pure fun published => by cases published)
      · exact fun died => by cases died
  rcases run : ((Work.compaction inputs full).prog (entryFormat shape)).run script world with ⟨exit, rest, after⟩
  have ends := wp_run holds allowed run
  rw [run] at stopped
  cases exit with
  | ok published =>
    cases published with
    | true => exact absurd rfl stopped
    | false => exact ends rfl
  | err error => exact ends
  | crash => exact ends

/-- A complete output over all the tables shows the old values exactly when it
shadows nothing. -/
theorem reopensSame_output_iff (undisturbed : Undisturbed shape world)
    (fits : ∀ record ∈ walRecords world.disk, record.Fits) {inputs : List SSTableId} {full : Bool}
    (applies : (Work.compaction inputs full).Over world) {disk : Disk EntryFile} (wal : disk.wal = world.disk.wal)
    (tables : disk.sst = world.disk.sst.insert world.engine.nextSstSeq (.whole (possibleKeys world.disk inputs)
      (mergedEntries shape world.disk inputs full))) (whole : AllWhole disk) {config : Config} (idle : config.policy.NeverPicks) :
    ReopensSame shape config world disk ↔ NothingShadowed shape world inputs full := by
  have ascending : Assoc.Ascending (mergedEntries shape world.disk inputs full) :=
    (mergedEntries_scanned undisturbed.ordered applies.2 full).ascending
  have layers : diskLayers disk = (liveLayers world).insert world.engine.nextSstSeq
      (mergedEntries shape world.disk inputs full) := by
    have same : diskLayers disk = diskLayers (world.disk.putTable world.engine.nextSstSeq
        (.whole (possibleKeys world.disk inputs) (mergedEntries shape world.disk inputs full))) := by
      rw [diskLayers, tables]
      rfl
    rw [same, diskLayers_putTable, undisturbed.all]
    rfl
  have shown : ∀ key, diskView disk key = (loggedValue world.disk key).or
      ((Assoc.find? (mergedEntries shape world.disk inputs full) key).or ((liveLayers world).lookup key)) := by
    intro key
    rw [diskView, loggedValue_congr wal, layers, Layers.lookup_insert_above _ (liveLayers_below undisturbed.toStocked)]
  have before : ∀ key, view world key = (loggedValue world.disk key).or ((liveLayers world).lookup key) := by
    intro key
    rw [← undisturbed.durable.onDisk key, diskView, undisturbed.all]
  rw [reopensSame_iff (undisturbed.closed_of_wal fits wal whole) whole undisturbed.toStocked idle]
  constructor
  · intro same entry member logged
    have found := Assoc.find?_of_mem ascending member
    have equal := same entry.1
    rw [shown, before, logged, found] at equal
    simpa using equal
  · intro clear key
    rw [shown, before]
    cases logged : loggedValue world.disk key with
    | some value => rfl
    | none =>
      cases found : Assoc.find? (mergedEntries shape world.disk inputs full) key with
      | none => rfl
      | some value => simpa using clear (key, value) (Assoc.mem_of_find? found) logged

end

theorem earlyFaults_done (kind : Call) : EarlyFaults kind .done := by
  cases kind <;> simp [EarlyFaults]

/-- An overwritten value and the new one, each in its table. -/
def overwrittenPut : World EntryFile :=
  let opened : World EntryFile := ⟨⟨.empty, SortedMap.empty.insert 1 []⟩, bootstrap restingConfig [] [] []⟩
  let first := ((put (entryFormat .twoStep) [1] [10] 0).run .calm opened).2.2
  let flushed := ((flush (entryFormat .twoStep)).run .calm first).2.2
  let second := ((put (entryFormat .twoStep) [1] [20] 0).run .calm flushed).2.2
  ((flush (entryFormat .twoStep)).run .calm second).2.2

theorem overwrittenPut_reached : FaultFree .twoStep overwrittenPut :=
  .flush (.put (.flush (.put (.opened restingConfig_idle (open_empty _ _)) [1] [10] 0)) [1] [20] 0)

/-- One value in the memtable. -/
def unflushedPut : World EntryFile :=
  ((put (entryFormat .twoStep) [1] [10] 0).run .calm
    ⟨⟨.empty, SortedMap.empty.insert 1 []⟩, bootstrap restingConfig [] [] []⟩).2.2

end Engine

end Enigma
