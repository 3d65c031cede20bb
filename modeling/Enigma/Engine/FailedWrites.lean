import Enigma.Engine.AnyFaults
import Enigma.Engine.Lifetimes

/-! Writes that end in an error, whatever calls fail. A write that fails to reach
the log leaves no trace in what is read. One that fails in the flush it set off
is in the memtable by then and stays there: the client is told that it failed,
and reads it. -/

namespace Enigma

namespace Engine

open Prog

section

variable {F : Type} {format : TableFormat F} {may : Call → Fate → Prop}

/-- Live tables have ids that were minted. -/
def Numbered (world : World F) : Prop := ∀ id ∈ world.engine.version.files.keys, id < world.engine.nextSstSeq

theorem numbered_frame : Frame (Numbered : World F → Prop) where
  mint := fun _ numbered id member => (numbered id member).trans (Nat.lt_succ_self _)
  tables := fun _ _ numbered => numbered
  publish := by
    intro world edit ids versionSet numbered minted applied id member
    have files := (VersionSet.apply_applied applied).current
    simp only [Dazzle.version, files] at member
    rcases VersionSet.mem_edited.mp member with ⟨old, _⟩ | ⟨row, added, same⟩
    · exact numbered id old
    · exact same ▸ minted row added

theorem numbered_flushMemtable (format : TableFormat F) : Preserves may Numbered (flushMemtable format) := by
  intro world holds
  -- the table's own id stays behind the counter to the end
  have frame : Frame fun after : World F => Numbered after ∧ world.engine.nextSstSeq < after.engine.nextSstSeq :=
    numbered_frame.minted world.engine.nextSstSeq
  rw [flushMemtable_eq]
  refine wp_bind (wp_publishMemtable_any format ⟨numbered_frame.mint world holds, Nat.lt_succ_self _⟩
    (fun _ after kept => frame.tables after _ kept) (fun _ kept => kept) (fun _ _ kept => kept.1)
    (fun _ died kept => ⟨died, kept.1⟩) ?_)
  intro info before kept
  refine wp_mono (frame.applyEdit ⟨[], [tableMeta world.engine.nextSstSeq info]⟩ kept ?_) ?_
    (fun _ _ refused => refused.2.1) (fun _ kept => ⟨kept.1, kept.2.1⟩)
  · intro row member
    rw [List.mem_singleton.mp member]
    exact kept.2
  · intro _ installed kept
    refine wp_bind (wp_of_run (fun script => onEngine_run _ script _) ?_)
    exact wp_call kept.1 (fun _ => kept.1) (fun died => ⟨⟨_, died⟩, kept.1⟩)

theorem numbered_flush (format : TableFormat F) : Preserves may Numbered (flush format) := by
  intro world holds
  refine wp_getState_bind ?_
  split
  · exact wp_pure holds
  · exact Preserves.bind (numbered_flushMemtable format)
      (fun _ => .bind (.attempt (numbered_frame.doCompactWork format)) fun _ => .pure ()) world holds

theorem numbered_write (format : TableFormat F) (key : Key) (value : Option Bytes) (timestamp : Nat) :
    Preserves may Numbered (write format key value timestamp) := by
  intro world holds
  refine wp_bind (wp_of_run (fun script => bumpLsnSequence_run script world) (wp_getState_bind ?_))
  refine wp_call_bind ?_ (fun _ => holds) (fun died => ⟨⟨_, died⟩, holds⟩)
  refine wp_call_bind ?_ (fun _ => holds) (fun died => ⟨⟨_, died⟩, holds⟩)
  refine wp_bind (wp_of_run (fun script => onEngine_run _ script _) (wp_getState_bind ?_))
  change wp may (if (written world key value timestamp).engine.activeMemtable.shouldFlush then flush format
    else return ()) _ (written world key value timestamp)
  split
  · exact numbered_flush format _ holds
  · exact wp_pure holds

theorem numbered_operation (format : TableFormat F) (operation : Operation) :
    Preserves may Numbered (operation.prog format) := by
  cases operation with
  | put key value timestamp =>
    change Preserves may Numbered (put format key value timestamp)
    rw [Engine.put]
    split
    · exact .fail _
    · exact numbered_write format key _ timestamp
  | remove key timestamp => exact numbered_write format key none timestamp
  | flush => exact numbered_flush format
  | doCompactWork => exact .bind (numbered_frame.doCompactWork format) fun _ => .pure ()
  | compactNow => exact .bind (numbered_frame.compactNow format) fun _ => .pure ()

theorem numbered_recover (format : TableFormat F) : Preserves may Numbered (recover format) := by
  intro world holds
  refine wp_getState_bind ?_
  dsimp only
  split
  · exact wp_pure holds
  · refine Preserves.bind (preserves_replaySegments (fun _ _ kept => kept) _ 0) (fun highest => ?_) world holds
    refine .bind ?_ fun _ => .bind (.forEach fun _ => .call fun _ kept => kept) fun _ => ?_
    · intro replayed kept
      refine wp_getState_bind ?_
      split
      · exact numbered_flush format replayed kept
      · exact wp_pure kept
    · intro cleaned kept
      exact wp_bind (wp_of_run (fun script => onEngine_run _ script _) (wp_pure kept))

/-- An engine that was opened has tables of the directory only. -/
theorem numbered_open (format : TableFormat F) (config : Config) (disk : Disk F) :
    wp may (Engine.open format config)
      ⟨fun engine after => Numbered ⟨after, engine⟩, fun _ _ => True, fun _ => True⟩ disk := by
  refine wp_getState_bind (wp_bind (wp_mapEach (fun id row => row.id = id) ?_ ?_))
  · intro id _
    have reads : Preserves may (fun after => after = disk) (readTable format (fun disk => disk) id) :=
      preserves_readTable format _ id
    refine wp_bind (wp_mono (reads disk rfl) ?_ (fun _ _ _ => trivial) (fun _ _ => trivial))
    exact fun info after same => wp_pure ⟨same, rfl⟩
  · intro metas named
    refine wp_call_bind ?_ (fun _ => trivial) (fun _ => trivial)
    have start : Numbered ⟨disk.openWal (highestOf disk.wal.keys + 1), bootstrap config disk.wal.keys
        (disk.openWal (highestOf disk.wal.keys + 1)).sst.keys metas⟩ := by
      intro id member
      obtain ⟨row, found⟩ := SortedMap.mem_keys_iff.mp member
      obtain ⟨listed, same⟩ := foundFiles_find? found
      obtain ⟨stored, present, known⟩ := forall₂_right named listed
      rw [← same, known]
      simp only [bootstrap, Disk.openWal_sst]
      exact Nat.lt_succ_of_le (le_highestOf present)
    refine wp_bind (wp_nested ?_)
    refine wp_mono (numbered_recover format _ start) ?_ (fun _ _ _ => trivial) (fun _ _ => trivial)
    exact fun _ after kept => wp_pure kept

variable (format) in
/-- States of an engine between two calls, whatever calls have failed so far. -/
inductive Reached : World F → Prop where
  | opened {config : Config} {script rest : Script Call} {disk after : Disk F} {engine : Dazzle}
      (opens : (Engine.open format config).run script disk = (.ok engine, rest, after)) : Reached ⟨after, engine⟩
  | operated {world : World F} (earlier : Reached world) (operation : Operation) (script : Script Call)
      (returns : ((operation.prog format).run script world).1 ≠ .crash) :
      Reached ((operation.prog format).run script world).2.2
  | policySet {world : World F} (earlier : Reached world) (policy : CompactionPolicy) :
      Reached { world with engine := { world.engine with policy := policy } }

theorem Reached.numbered {world : World F} (reached : Reached format world) : Numbered world := by
  induction reached with
  | @opened config script rest disk after engine opens =>
    have allowed : Allowed (fun _ _ => True) script := fun _ _ => trivial
    exact wp_run (numbered_open format config disk) allowed opens
  | operated _ operation script _ ih => exact (numbered_operation format operation).run ih script
  | policySet _ _ ih => exact ih

/-- The flush of a state was given up: reads find the memtable and the tables as
they were. -/
structure GivenUp (world after : World F) : Prop where
  memtable : after.engine.activeMemtable = world.engine.activeMemtable
  versionSet : after.engine.versionSet = world.engine.versionSet
  tables : ∀ id, id ≠ world.engine.nextSstSeq → after.disk.sst.find? id = world.disk.sst.find? id

theorem wp_flush_givenUp (format : TableFormat F) (removes : ¬ may .fsRemove .failed) (world : World F) :
    wp may (flush format) ⟨fun _ _ => True, fun _ => GivenUp world, fun _ => Dies may⟩ world := by
  refine wp_flush_refused format removes ⟨rfl, rfl, fun _ _ => rfl⟩ ?_ ?_
  · intro file after given
    refine ⟨given.memtable, given.versionSet, ?_⟩
    intro id other
    rw [← given.tables id other]
    simp [other]
  · exact fun after given => ⟨given.memtable, given.versionSet, given.tables⟩

theorem GivenUp.get {world after : World F} (given : GivenUp world after) (numbered : Numbered world) (key : Key) :
    get format after key = get format world key := by
  have tables : lookupInternal format after.disk key world.engine.version.files.keys.reverse =
      lookupInternal format world.disk key world.engine.version.files.keys.reverse := by
    refine lookupInternal_congr ?_ key
    intro id member
    exact given.tables id (ne_of_lt (numbered id (List.mem_reverse.mp member)))
  have version : after.engine.version = world.engine.version := by rw [Dazzle.version, given.versionSet]; rfl
  simp only [Engine.get, getInternal, given.memtable, version, tables]

/-- Where a write that returns an error has stopped: at the log, or in a flush
after the memtable has taken the value. -/
theorem write_failed {world after : World F} {key : Key} {value : Option Bytes} {timestamp : Nat} {error : Error}
    {script rest : Script Call} (removes : ∀ index, script index .fsRemove ≠ .failed)
    (fails : (write format key value timestamp).run script world = (.err error, rest, after)) :
    (script 0 .append = .failed ∨ script 1 .sync = .failed) ∧ GivenUp world after ∨
      script 0 .append ≠ .failed ∧ script 1 .sync ≠ .failed ∧ GivenUp (written world key value timestamp) after := by
  rw [write, bind_run_ok (bumpLsnSequence_run _ _), bind_run_ok (getState_run _ _)] at fails
  rcases call_bind_refused fails with ⟨failed, _, same⟩ | ⟨logs, fails⟩
  · subst same
    exact .inl ⟨.inl failed, rfl, rfl, fun _ _ => rfl⟩
  rcases call_bind_refused fails with ⟨failed, _, same⟩ | ⟨syncs, fails⟩
  · subst same
    exact .inl ⟨.inr failed, rfl, rfl, fun _ _ => by simp⟩
  rw [bind_run_ok (onEngine_run _ _ _), bind_run_ok (getState_run _ _)] at fails
  change (if (written world key value timestamp).engine.activeMemtable.shouldFlush then flush format
    else return ()).run _ (written world key value timestamp) = _ at fails
  split at fails
  · have allowed : Allowed (fun kind fate => ¬ (kind = .fsRemove ∧ fate = .failed)) script.tail.tail := by
      rintro index kind ⟨same, failed⟩
      subst same
      exact removes _ failed
    have given := wp_run (wp_flush_givenUp format (by simp) (written world key value timestamp)) allowed fails
    have synced : script 1 .sync = .done := syncs
    exact .inr ⟨by simp [logs], by simp [synced], given⟩
  · cases fails

theorem get_written (world : World F) (key : Key) (value : Option Bytes) (timestamp : Nat) (probe : Key) :
    get format (written world key value timestamp) probe =
      if probe = key then .ok value else get format world probe := by
  have tables : lookupInternal format (written world key value timestamp).disk probe
      world.engine.version.files.keys.reverse = lookupInternal format world.disk probe
        world.engine.version.files.keys.reverse := lookupInternal_congr (fun _ _ => by simp [written]) probe
  have version : (written world key value timestamp).engine.version = world.engine.version := rfl
  have memtable : (written world key value timestamp).engine.activeMemtable.get probe = if probe = key then
      some ⟨value.getD [], value.isNone, world.engine.lsn⟩ else world.engine.activeMemtable.get probe := by
    simp only [written, storeWrite_eq, Memtable.get, Memtable.store_entries, SortedMap.find?_insert]
    split <;> rfl
  by_cases same : probe = key
  · rw [if_pos same] at memtable ⊢
    rw [Engine.get, getInternal, memtable]
    cases value <;> rfl
  · rw [if_neg same] at memtable ⊢
    rw [Engine.get, getInternal, memtable, version, tables]
    rfl

variable (format) in
/-- The call of a client that writes: no value means removal. -/
def clientWrite (key : Key) (value : Option Bytes) (timestamp : Nat) : Prog Call Error (World F) Unit :=
  match value with
  | some value => put format key value timestamp
  | none => remove format key timestamp

theorem clientWrite_eq (key : Key) (value : Option Bytes) (timestamp : Nat) : clientWrite format key value timestamp =
    if value = some [] then fail ⟨.badConfig, "value is empty"⟩ else write format key value timestamp := by
  cases value with
  | none => rfl
  | some value => simp [clientWrite, put]

/-- A write that returns an error goes unseen exactly when it was refused, did not
get past the log, or writes what is read anyway. -/
theorem failed_write_unseen_iff {world after : World F} (reached : Reached format world) {script rest : Script Call}
    (removes : ∀ index, script index .fsRemove ≠ .failed) {key : Key} {value : Option Bytes} {timestamp : Nat}
    {error : Error} (fails : (clientWrite format key value timestamp).run script world = (.err error, rest, after)) :
    (∀ probe, get format after probe = get format world probe) ↔
      value = some [] ∨ script 0 .append = .failed ∨ script 1 .sync = .failed ∨ get format world key = .ok value := by
  rw [clientWrite_eq] at fails
  split at fails
  · rename_i empty
    cases fails
    simp [empty]
  · rename_i filled
    rcases write_failed removes fails with ⟨failed, given⟩ | ⟨logs, syncs, given⟩
    · refine ⟨fun _ => ?_, fun _ probe => given.get reached.numbered probe⟩
      rcases failed with append | sync
      · exact .inr (.inl append)
      · exact .inr (.inr (.inl sync))
    · have numbered : Numbered (written world key value timestamp) := reached.numbered
      have shown : ∀ probe, get format after probe = if probe = key then .ok value else get format world probe :=
        fun probe => (given.get numbered probe).trans (get_written world key value timestamp probe)
      constructor
      · intro unseen
        have answer := shown key
        rw [unseen key, if_pos rfl] at answer
        exact .inr (.inr (.inr answer))
      · rintro (empty | append | sync | same) probe
        · exact absurd empty filled
        · exact absurd append logs
        · exact absurd sync syncs
        · rw [shown probe]
          split
          · rename_i here
            rw [here, same]
          · rfl

end

/-- A new engine whose memtable is full with the first byte. -/
def smallEngine : World EntryFile :=
  ⟨⟨.empty, SortedMap.empty.insert 1 []⟩, bootstrap ⟨1, ⟨fun _ => none, "resting"⟩⟩ [] [] []⟩

theorem smallEngine_reached : Reached (entryFormat .plain) smallEngine := .opened (open_empty _ _)

/-- A put that cannot append to the log is not seen afterwards. -/
theorem failed_write_unseen_of_append :
    ((clientWrite (entryFormat .plain) [1] (some [10]) 0).run (.only 0 .append .failed) smallEngine).1 =
        .err (Call.error .append) ∧
      ∀ probe, get (entryFormat .plain)
        ((clientWrite (entryFormat .plain) [1] (some [10]) 0).run (.only 0 .append .failed) smallEngine).2.2 probe =
          get (entryFormat .plain) smallEngine probe := by
  have removes : ∀ index, (Script.only 0 .append .failed : Script Call) index .fsRemove ≠ .failed :=
    fun _ => by simp [Script.only]
  rcases result : (clientWrite (entryFormat .plain) [1] (some [10]) 0).run (.only 0 .append .failed) smallEngine with
    ⟨exit, rest, after⟩
  have refused : exit = .err (Call.error .append) := congrArg Prod.fst result.symm
  subst refused
  exact ⟨rfl, (failed_write_unseen_iff smallEngine_reached removes result).mpr (.inr (.inl rfl))⟩

/-- The third call is the creation of the table that the put's own flush writes.
It fails, and so does the put; the value is read all the same. -/
theorem failed_put_read : Reached (entryFormat .plain) smallEngine ∧
    (∀ index, (Script.only 2 .open .failed : Script Call) index .fsRemove ≠ .failed) ∧
    ((put (entryFormat .plain) [1] [10] 0).run (.only 2 .open .failed) smallEngine).1 = .err (Call.error .open) ∧
    get (entryFormat .plain) smallEngine [1] = .ok none ∧
    get (entryFormat .plain) ((put (entryFormat .plain) [1] [10] 0).run (.only 2 .open .failed) smallEngine).2.2 [1] =
      .ok (some [10]) :=
  ⟨smallEngine_reached, fun _ => by simp [Script.only], by rfl, by rfl, by rfl⟩

end Engine

end Enigma
