import Enigma.Engine.LiveCompaction
import Enigma.Engine.Recovery

/-! States that faultless writes and flushes reach, and what a faultless `open`
makes of a directory. Here keys may be empty: one `open` shows what the directory
says even when its recovery keeps an entry of size zero in memory. -/

namespace Enigma

namespace Engine

open Prog

section

variable {F : Type} {format : TableFormat F} {world : World F}

theorem flush_empty (empty : world.engine.activeMemtable.count = 0) (script : Script Call) :
    (flush format).run script world = (.ok (), script, world) := by
  rw [flush, bind_run_ok (getState_run _ _), ite_run]
  simp [empty]

theorem dropWals_calm (segments : List (Nat × List WalRecord)) (world : World F) :
    ∃ after, (forEach segments fun segment => onDisk .fsRemove (Disk.dropWal segment.1)).run .calm world =
      (.ok (), .calm, after) ∧ after.disk.sst = world.disk.sst ∧ after.engine = world.engine := by
  induction segments generalizing world with
  | nil => exact ⟨world, rfl, rfl, rfl⟩
  | cons segment later ih => exact ih { world with disk := world.disk.dropWal segment.1 }

/-- What `open` does with one table file. -/
def readMeta (format : TableFormat F) (id : SSTableId) : Prog Call Error (Disk F) SSTableMeta := do
  let info ← readTable format (fun disk => disk) id
  return tableMeta id info

variable (format) in
theorem readMeta_calm {disk : Disk F} {id : SSTableId} {file : F} (present : disk.sst.find? id = some file) :
    (readMeta format id).run .calm disk = (match format.create file with
      | .error error => .err error
      | .ok info => .ok (tableMeta id info), .calm, disk) := by
  have read := readTable_run format benign_calm (fun disk => disk) present
  cases accepted : format.create file with
  | error error =>
    rw [accepted] at read
    exact bind_run_err read
  | ok info =>
    rw [accepted] at read
    exact bind_run_ok read

/-- A table that the reader rejects makes `open` fail. -/
theorem open_rejected {disk : Disk F} {id : SSTableId} {file : F} {answer : Error}
    (present : disk.sst.find? id = some file) (rejected : format.create file = .error answer) (config : Config) :
    ∃ error, (Engine.open format config).run .calm disk = (.err error, .calm, disk) := by
  have stops : ∀ ids : List SSTableId, (∀ other ∈ ids, other ∈ disk.sst.keys) → id ∈ ids →
      ∃ error, (mapEach ids (readMeta format)).run .calm disk = (.err error, .calm, disk) := by
    intro ids
    induction ids with
    | nil => simp
    | cons first rest ih =>
      intro listed member
      obtain ⟨file, found⟩ := SortedMap.mem_keys_iff.mp (listed first (by simp))
      have read := readMeta_calm format found
      cases accepted : format.create file with
      | error error =>
        rw [accepted] at read
        exact ⟨error, bind_run_err read⟩
      | ok info =>
        rw [accepted] at read
        have later : id ∈ rest := by
          rcases List.mem_cons.mp member with here | later
          · subst here
            rw [present] at found
            cases found
            rw [rejected] at accepted
            cases accepted
          · exact later
        obtain ⟨error, failed⟩ := ih (fun other held => listed other (by simp [held])) later
        exact ⟨error, (bind_run_ok read).trans (bind_run_err failed)⟩
  obtain ⟨error, failed⟩ := stops disk.sst.keys (fun _ member => member) (SortedMap.mem_keys_iff.mpr ⟨_, present⟩)
  exact ⟨error, (bind_run_ok (getState_run _ _)).trans (bind_run_err failed)⟩

end

section

variable {shape : TableShape} {logs : WalRecord → Prop} {accepts : Reading} {world : World EntryFile}

/-- A flush under a policy that never picks. -/
theorem flush_calm (shape : TableShape) (stocked : Stocked world) (idle : world.engine.policy.NeverPicks)
    (filled : world.engine.activeMemtable.count ≠ 0) : ∃ (versionSet : VersionSet) (info : TableInfo), versionSet.Quiet ∧
      versionSet.currentVersion.files = world.engine.version.files.insert world.engine.nextSstSeq
        (tableMeta world.engine.nextSstSeq info) ∧
      (flush (entryFormat shape)).run .calm world =
        (.ok (), .calm, flushedWorld (entryFormat shape) world versionSet) := by
  have accepted := entryFormat_create_whole shape world.engine.activeMemtable.entries.bindings filled
  rw [← flushedFile_eq] at accepted
  obtain ⟨versionSet, quiet, files, flushed⟩ := flushMemtable_run benign_calm stocked.quiet accepted
  have silent := doCompactWork_silent shape (flushedWorld (entryFormat shape) world versionSet) idle .calm
  refine ⟨versionSet, _, quiet, files, (flush_run filled flushed).trans ?_⟩
  exact bind_run_ok (attempt_run_ok silent)

/-- Tables and reads do not depend on the log. -/
theorem Stocked.of_tables {other : World EntryFile} (stocked : Stocked world) (tables : other.disk.sst = world.disk.sst)
    (versions : other.engine.versionSet = world.engine.versionSet)
    (counter : other.engine.nextSstSeq = world.engine.nextSstSeq) : Stocked other where
  quiet := versions ▸ stocked.quiet
  named := by
    rw [Dazzle.version, versions]
    exact stocked.named
  stored := by
    rw [Dazzle.version, versions, tables]
    exact stocked.stored
  below := by
    rw [Dazzle.version, versions, counter]
    exact stocked.below

theorem view_of_tables {other : World EntryFile} (tables : other.disk.sst = world.disk.sst)
    (versions : other.engine.versionSet = world.engine.versionSet)
    (memtable : other.engine.activeMemtable = world.engine.activeMemtable) (key : Key) : view other key = view world key := by
  have layers : liveLayers other = liveLayers world :=
    liveLayers_congr (by rw [Dazzle.version, versions]; rfl) (fun id _ => by simp [entriesAt, tables])
  rw [view, view, layers, memtable]

/-- An engine that shows what is asked of it. -/
def Shows (accepts : Reading) (world : World EntryFile) : Prop := Stocked world ∧ ∀ key, accepts key (view world key)

theorem Shows.of_tables {other : World EntryFile} (shows_ : Shows accepts world) (tables : other.disk.sst = world.disk.sst)
    (versions : other.engine.versionSet = world.engine.versionSet)
    (counter : other.engine.nextSstSeq = world.engine.nextSstSeq)
    (memtable : other.engine.activeMemtable = world.engine.activeMemtable) : Shows accepts other := by
  refine ⟨shows_.1.of_tables tables versions counter, ?_⟩
  intro key
  rw [view_of_tables tables versions memtable]
  exact shows_.2 key

theorem flushRecovered_calm (shape : TableShape) (shown : Shows accepts world) (idle : world.engine.policy.NeverPicks) :
    ∃ after, (flushRecovered (entryFormat shape)).run .calm world = (.ok (), .calm, after) ∧ Shows accepts after := by
  rw [flushRecovered, bind_run_ok (getState_run _ _), ite_run]
  split
  · by_cases empty : world.engine.activeMemtable.count = 0
    · exact ⟨world, flush_empty empty .calm, shown⟩
    · obtain ⟨versionSet, info, quiet, files, run⟩ := flush_calm shape shown.1 idle empty
      refine ⟨_, run, shown.1.flushed empty quiet files, ?_⟩
      intro key
      rw [view_flushed shown.1 files]
      exact shown.2 key
  · exact ⟨world, rfl, shown⟩

theorem recover_calm (boot : Bootstrapped shape logs accepts world) (fits : ∀ record, logs record → record.Fits) :
    ∃ found after, (recover (entryFormat shape)).run .calm world = (.ok found, .calm, after) ∧ Shows accepts after := by
  have replayed := boot.replayed
  have shown : Shows accepts (replayedWorld world (walRecords world.disk)) := ⟨replayed.toStocked, replayed.inMemory⟩
  rw [recover, bind_run_ok (getState_run _ _), ite_run]
  change ∃ found after, (if oldWalFiles world = [] then _ else _) = _ ∧ _
  split
  · rename_i none
    have records : walRecords world.disk = [] := by rw [← boot.oldRecords, none]; rfl
    rw [records] at shown
    exact ⟨0, world, rfl, shown⟩
  · have replay := replaySegments_run (oldWalFiles world) 0 world
    generalize highestSeen 0 (foundRecords (oldWalFiles world)) = found at replay
    rw [boot.found fits] at replay
    obtain ⟨flushed, run, kept⟩ := flushRecovered_calm shape shown replayed.idle
    obtain ⟨dropped, drops, tables, engine⟩ := dropWals_calm (oldWalFiles world) flushed
    refine ⟨found, { dropped with engine := { dropped.engine with lsn := max dropped.engine.lsn found + 1 } }, ?_, ?_⟩
    · refine (bind_run_ok replay).trans ((bind_run_ok run).trans ((bind_run_ok drops).trans ?_))
      exact bind_run_ok (onEngine_run _ _ _)
    · exact kept.of_tables tables (by rw [engine]) (by rw [engine]) (by rw [engine])

/-- A faultless `open` of a directory whose tables are all complete shows what
the directory says. -/
theorem open_calm {disk : Disk EntryFile} (closed : Closed shape logs accepts disk)
    (fits : ∀ record, logs record → record.Fits) (whole : AllWhole disk) {config : Config} (idle : config.policy.NeverPicks) :
    ∃ engine after, (Engine.open (entryFormat shape) config).run .calm disk = (.ok engine, .calm, after) ∧
      Shows accepts ⟨after, engine⟩ := by
  have complete : ∀ id ∈ disk.sst.keys, ∃ file, disk.sst.find? id = some file ∧
      (entryFormat shape).create file = .ok (infoAt shape disk id) := by
    intro id member
    obtain ⟨file, present⟩ := SortedMap.mem_keys_iff.mp member
    obtain ⟨estimatedKeys, entries, same, positive⟩ := whole id file present
    subst same
    refine ⟨_, present, ?_⟩
    rw [entryFormat_create_whole shape entries positive]
    simp [infoAt, fileAt, present]
  have reads : ∀ id ∈ disk.sst.keys,
      (readMeta (entryFormat shape) id).run .calm disk = (.ok (tableMeta id (infoAt shape disk id)), .calm, disk) := by
    intro id member
    obtain ⟨file, present, accepted⟩ := complete id member
    rw [readMeta_calm _ present, accepted]
  let metas := disk.sst.keys.map fun id => tableMeta id (infoAt shape disk id)
  have read : List.Forall₂ (ReadFrom (entryFormat shape) disk) disk.sst.keys metas := by
    rw [List.forall₂_map_right_iff, List.forall₂_same]
    intro id member
    obtain ⟨file, present, accepted⟩ := complete id member
    exact ⟨file, _, present, accepted, rfl⟩
  obtain ⟨found, after, run, shown⟩ := recover_calm (bootstrapped closed idle read) fits
  exact ⟨after.engine, after.disk, open_run (mapEach_run disk reads) run, shown⟩

/-- The next `open` succeeds and every read is as it was in an earlier state. -/
def ReopensSame (shape : TableShape) (config : Config) (world : World EntryFile) (disk : Disk EntryFile) : Prop :=
  ∃ engine after, (Engine.open (entryFormat shape) config).run .calm disk = (.ok engine, .calm, after) ∧
    ∀ key, get (entryFormat shape) ⟨after, engine⟩ key = get (entryFormat shape) world key

/-- What the next `open` lets a client read of a key, if it succeeds. -/
def reopenedGet (shape : TableShape) (config : Config) (disk : Disk EntryFile) (key : Key) :
    Option (Except Error (Option Bytes)) :=
  match (Engine.open (entryFormat shape) config).run .calm disk with
  | (.ok engine, _, after) => some (get (entryFormat shape) ⟨after, engine⟩ key)
  | _ => none

theorem ReopensSame.reopenedGet {config : Config} {disk : Disk EntryFile}
    (same : ReopensSame shape config world disk) (key : Key) :
    Engine.reopenedGet shape config disk key = some (get (entryFormat shape) world key) := by
  obtain ⟨engine, after, opens, answers⟩ := same
  rw [Engine.reopenedGet, opens]
  exact congrArg some (answers key)

theorem reopensSame_iff {disk : Disk EntryFile}
    (closed : Closed shape WalRecord.Fits (fun key value => value = diskView disk key) disk) (whole : AllWhole disk)
    (stocked : Stocked world) {config : Config} (idle : config.policy.NeverPicks) : ReopensSame shape config world disk ↔
      ∀ key, (diskView disk key).bind InternalValue.visible = (view world key).bind InternalValue.visible := by
  obtain ⟨engine, after, opens, tables, shown⟩ := open_calm closed (fun _ => id) whole idle
  have reads : ∀ key, get (entryFormat shape) ⟨after, engine⟩ key = get (entryFormat shape) world key ↔
      (diskView disk key).bind InternalValue.visible = (view world key).bind InternalValue.visible := by
    intro key
    rw [get_eq tables, get_eq stocked, shown key, Except.ok.injEq]
  constructor
  · intro same key
    obtain ⟨other, last, reopens, answers⟩ := same
    rw [opens] at reopens
    cases reopens
    exact (reads key).mp (answers key)
  · intro same
    exact ⟨engine, after, opens, fun key => (reads key).mpr (same key)⟩

/-- States that faultless puts, removes and flushes reach from an empty
directory, under a policy that never picks. -/
inductive FaultFree (shape : TableShape) : World EntryFile → Prop where
  | opened {config : Config} (idle : config.policy.NeverPicks) {engine : Dazzle} {disk : Disk EntryFile}
      (opens : (Engine.open (entryFormat shape) config).run .calm .empty = (.ok engine, .calm, disk)) :
      FaultFree shape ⟨disk, engine⟩
  | put {world : World EntryFile} (earlier : FaultFree shape world) (key : Key) (value : Bytes) (timestamp : Nat) :
      FaultFree shape ((Engine.put (entryFormat shape) key value timestamp).run .calm world).2.2
  | remove {world : World EntryFile} (earlier : FaultFree shape world) (key : Key) (timestamp : Nat) :
      FaultFree shape ((Engine.remove (entryFormat shape) key timestamp).run .calm world).2.2
  | flush {world : World EntryFile} (earlier : FaultFree shape world) :
      FaultFree shape ((Engine.flush (entryFormat shape)).run .calm world).2.2

/-- What such a state keeps: every table is live, in full and not empty, what the
memtable holds is logged, and directory and engine say the same. -/
structure Undisturbed (shape : TableShape) (world : World EntryFile) : Prop extends Consistent world where
  durable : Durable shape (fun _ => True) (fun key value => value = view world key) world
  tight : Tight world
  all : liveLayers world = diskLayers world.disk
  complete : AllWhole world.disk
  filled : ∀ id ∈ world.engine.version.files.keys, entriesAt world.disk id ≠ []
  memtableLogged : ∀ key, (world.engine.activeMemtable.get key).isSome → (loggedValue world.disk key).isSome

theorem Closed.empty (reads : ∀ key, accepts key none) : Closed shape logs accepts .empty where
  sole := ⟨0, fun _ _ found => by cases found⟩
  loggable := fun _ _ found => by cases found
  whole := fun _ _ _ found => by cases found
  onDisk := reads

theorem undisturbed_opened {config : Config} (idle : config.policy.NeverPicks) {engine : Dazzle} {disk : Disk EntryFile}
    (opens : (Engine.open (entryFormat shape) config).run .calm .empty = (.ok engine, .calm, disk)) :
    Undisturbed shape ⟨disk, engine⟩ := by
  rw [open_empty] at opens
  cases opens
  have closed : Closed shape (fun _ => True) (fun _ value => value = none) .empty := .empty fun _ => rfl
  have boot : Bootstrapped shape (fun _ => True) (fun _ value => value = none) (bootWorld config .empty []) :=
    bootstrapped closed idle .nil
  have settled := boot.settled_empty rfl
  have durable : Durable shape (fun _ => True) (fun _ value => value = none) (bootWorld config .empty []) :=
    settled.durable.1
  exact {
    consistent_fresh config with
    durable := durable
    all := rfl
    tight := settled.durable.2
    complete := fun id file found => by cases found
    filled := fun id member => by cases member
    memtableLogged := fun key present => by cases present }

theorem Undisturbed.written (undisturbed : Undisturbed shape world) (key : Key) (value : Option Bytes) (timestamp : Nat) :
    Undisturbed shape (written world key value timestamp) where
  toConsistent := undisturbed.toConsistent.written key value timestamp
  durable := by
    refine undisturbed.durable.written trivial ?_ ?_
    · intro probe held different same
      rw [view_written, if_neg different]
      exact same
    · rw [view_written, if_pos rfl]
      rfl
  tight := undisturbed.tight
  all := by
    rw [liveLayers_written, undisturbed.all]
    simp [diskLayers, Engine.written]
  complete := by
    intro id file found
    exact undisturbed.complete id file (by simpa [Engine.written] using found)
  filled := by
    intro id member
    have same := undisturbed.filled id member
    simpa [entriesAt, Engine.written] using same
  memtableLogged := by
    intro probe present
    have logged := loggedValue_appendWal undisturbed.durable.log
      (writtenRecord world key value timestamp) undisturbed.durable.logged probe
    change (loggedValue (world.disk.appendWal _ (writtenRecord world key value timestamp)) probe).isSome
    rw [logged]
    split
    · rfl
    · rename_i different
      refine undisturbed.memtableLogged probe ?_
      have other : probe ≠ key := different
      simpa [Engine.written, storeWrite_eq, Memtable.get, other] using present

theorem Undisturbed.flushed (undisturbed : Undisturbed shape world) (filled : world.engine.activeMemtable.count ≠ 0)
    {versionSet : VersionSet} {info : TableInfo} (quiet : versionSet.Quiet)
    (files : versionSet.currentVersion.files = world.engine.version.files.insert world.engine.nextSstSeq
      (tableMeta world.engine.nextSstSeq info)) :
    Undisturbed shape (flushedWorld (entryFormat shape) world versionSet) where
  toConsistent := undisturbed.toConsistent.flushed filled quiet files
  durable := by
    have flushed := undisturbed.durable.flushed undisturbed.tight filled quiet files
    refine flushed.mono ?_
    intro key value same
    rw [view_flushed undisturbed.toStocked files, same]
  tight := Nat.le_refl _
  all := by
    rw [liveLayers_flushed shape files, undisturbed.all]
    have tables : diskLayers (flushedWorld (entryFormat shape) world versionSet).disk =
        diskLayers (world.disk.putTable world.engine.nextSstSeq (flushedFile (entryFormat shape) world)) := by
      simp [diskLayers, flushedWorld]
    rw [tables, diskLayers_putTable, flushedFile_eq]
    rfl
  complete := by
    intro id file found
    simp only [flushedWorld, flushedFile_eq, Disk.dropWal_sst, Disk.openWal_sst, Disk.putTable_sst,
      SortedMap.find?_insert] at found
    split at found
    · cases found
      exact ⟨_, _, rfl, filled⟩
    · exact undisturbed.complete id file found
  filled := by
    intro id member
    simp only [flushedWorld, Dazzle.version, files, SortedMap.mem_keys_insert] at member
    simp only [flushedWorld, flushedFile_eq, entriesAt, Disk.dropWal_sst, Disk.openWal_sst, Disk.putTable_sst,
      SortedMap.find?_insert]
    split
    · intro empty
      exact filled (List.length_eq_zero_iff.mpr empty)
    · rename_i different
      exact undisturbed.filled id (member.resolve_left different)
  memtableLogged := by
    intro key present
    cases present

theorem Undisturbed.flush (undisturbed : Undisturbed shape world) :
    Undisturbed shape ((flush (entryFormat shape)).run .calm world).2.2 := by
  by_cases empty : world.engine.activeMemtable.count = 0
  · rw [flush_empty empty .calm]
    exact undisturbed
  · obtain ⟨versionSet, info, quiet, files, run⟩ := flush_calm shape undisturbed.toStocked undisturbed.durable.idle empty
    rw [run]
    exact undisturbed.flushed empty quiet files

theorem Undisturbed.write (undisturbed : Undisturbed shape world) (key : Key) (value : Option Bytes) (timestamp : Nat) :
    Undisturbed shape ((write (entryFormat shape) key value timestamp).run .calm world).2.2 := by
  have run := write_run (entryFormat shape) benign_calm world key value timestamp
  change (Engine.write (entryFormat shape) key value timestamp).run .calm world = _ at run
  rw [run]
  split
  · exact (undisturbed.written key value timestamp).flush
  · exact undisturbed.written key value timestamp

theorem FaultFree.undisturbed (reached : FaultFree shape world) : Undisturbed shape world := by
  induction reached with
  | opened idle opens => exact undisturbed_opened idle opens
  | put earlier key value timestamp ih =>
    rw [Engine.put, ite_run]
    split
    · exact ih
    · exact ih.write key (some value) timestamp
  | remove earlier key timestamp ih => exact ih.write key none timestamp
  | flush earlier ih => exact ih.flush

end

end Engine

end Enigma
