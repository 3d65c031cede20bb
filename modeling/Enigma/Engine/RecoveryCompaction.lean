import Enigma.Engine.LiveCompaction
import Enigma.Engine.Recovery

/-! The compaction check at the end of a recovery, under any policy. Every table of
the directory is live by then, so the directory tells what the check picks and
which lookups the tables answer after it. -/

namespace Enigma

namespace Engine

open Prog

section

variable (shape : TableShape)

/-- The row of each table of a directory. -/
def listedMetas (disk : Disk EntryFile) : List SSTableMeta :=
  disk.sst.keys.map fun id => tableMeta id (infoAt shape disk id)

/-- The inputs are tables of the directory, and their footers promise a key. Any
other task fails, and readers notice nothing. -/
def Compacts (disk : Disk EntryFile) (inputs : List SSTableId) : Prop :=
  (∀ id ∈ inputs, id ∈ disk.sst.keys) ∧ possibleKeys disk inputs ≠ 0

instance (disk : Disk EntryFile) (inputs : List SSTableId) : Decidable (Compacts disk inputs) :=
  inferInstanceAs (Decidable (_ ∧ _))

/-- The newest version of a key once the candidate is compacted: what the merge
writes for it, else that of the newest table which stays. -/
def compactedLookup (disk : Disk EntryFile) (candidate : CompactionCandidate) (key : Key) : Option InternalValue :=
  (Assoc.find? (mergedEntries shape disk candidate.inputs candidate.canDropTombstone) key).or
    (Layers.lookup (candidate.inputs.foldl SortedMap.erase (diskLayers disk)) key)

/-- The newest version of a key behind the compaction check. -/
def checkedLookup (policy : CompactionPolicy) (disk : Disk EntryFile) (key : Key) : Option InternalValue :=
  match policy.pick (listedMetas shape disk) with
  | none => (diskLayers disk).lookup key
  | some candidate =>
    if Compacts disk candidate.inputs then compactedLookup shape disk candidate key else (diskLayers disk).lookup key

/-- Exactly the tables of the directory are live. -/
def Listed (world : World EntryFile) : Prop :=
  world.engine.version.files = world.disk.sst.mapValues fun id _ => tableMeta id (infoAt shape world.disk id)

end

section

variable {shape : TableShape} {world : World EntryFile}

theorem infoAt_congr {disk other : Disk EntryFile} {id : SSTableId} (same : disk.sst.find? id = other.sst.find? id) :
    infoAt shape disk id = infoAt shape other id := by
  simp only [infoAt, fileAt, same]

theorem infoAt_of_create {disk : Disk EntryFile} {id : SSTableId} {file : EntryFile} {info : TableInfo}
    (present : disk.sst.find? id = some file) (accepted : (entryFormat shape).create file = .ok info) :
    infoAt shape disk id = info := by
  obtain ⟨estimatedKeys, entries, rfl, positive⟩ := entryFormat_create_ok shape accepted
  rw [entryFormat_create_whole shape entries positive] at accepted
  cases accepted
  simp [infoAt, fileAt, present]

theorem Listed.keys (listed : Listed shape world) : world.engine.version.files.keys = world.disk.sst.keys := by
  rw [listed, SortedMap.keys, SortedMap.keys]
  simp only [SortedMap.mapValues, List.map_map]
  rfl

theorem Listed.metas (listed : Listed shape world) :
    world.engine.version.sstMetaToVector = listedMetas shape world.disk := by
  rw [Version.sstMetaToVector, listed, listedMetas, SortedMap.keys]
  simp only [SortedMap.mapValues, List.map_map]
  rfl

theorem Listed.layers (listed : Listed shape world) : liveLayers world = diskLayers world.disk := by
  apply SortedMap.ext_find?
  intro id
  rw [liveLayers_find?, listed, diskLayers_find?, SortedMap.find?_mapValues, entriesAt]
  cases world.disk.sst.find? id <;> rfl

/-- So it is when `open` starts to recover. -/
theorem listed_boot {disk : Disk EntryFile} (config : Config) {metas : List SSTableMeta}
    (read : List.Forall₂ (ReadFrom (entryFormat shape) disk) disk.sst.keys metas) :
    Listed shape (bootWorld config disk metas) := by
  apply SortedMap.ext_find?
  intro id
  change (foundFiles metas).find? id = _
  rw [SortedMap.find?_mapValues, bootWorld, Disk.openWal_sst]
  cases found : (foundFiles metas).find? id with
  | none =>
    have missing := SortedMap.find?_eq_none_iff.mp found
    rw [foundFiles_keys read] at missing
    rw [SortedMap.find?_eq_none_iff.mpr missing]
    rfl
  | some row =>
    obtain ⟨file, info, present, accepted, same⟩ := foundFiles_read read found
    have footer : infoAt shape (disk.openWal (highestOf disk.wal.keys + 1)) id = info := by
      refine infoAt_of_create ?_ accepted
      rw [Disk.openWal_sst, present]
    rw [present, Option.map_some, footer, same]

/-- A flush adds its table to the directory and to the version. -/
theorem Listed.flushed (listed : Listed shape world) {versionSet : VersionSet} {info : TableInfo}
    (accepted : (entryFormat shape).create (flushedFile (entryFormat shape) world) = .ok info)
    (files : versionSet.currentVersion.files =
      world.engine.version.files.insert world.engine.nextSstSeq (tableMeta world.engine.nextSstSeq info)) :
    Listed shape (flushedWorld (entryFormat shape) world versionSet) := by
  have tables : (flushedWorld (entryFormat shape) world versionSet).disk.sst =
      world.disk.sst.insert world.engine.nextSstSeq (flushedFile (entryFormat shape) world) := by
    rw [flushedWorld, Disk.dropWal_sst, Disk.openWal_sst, Disk.putTable_sst]
  apply SortedMap.ext_find?
  intro id
  change versionSet.currentVersion.files.find? id = _
  rw [files, listed, SortedMap.find?_insert, SortedMap.find?_mapValues, SortedMap.find?_mapValues, tables,
    SortedMap.find?_insert]
  split
  · rename_i same
    have footer : infoAt shape (flushedWorld (entryFormat shape) world versionSet).disk id = info := by
      refine infoAt_of_create ?_ accepted
      rw [tables, SortedMap.find?_insert, if_pos same]
    rw [Option.map_some, footer, same]
  · rename_i different
    have footer : infoAt shape (flushedWorld (entryFormat shape) world versionSet).disk id =
        infoAt shape world.disk id := by
      refine infoAt_congr ?_
      rw [tables, SortedMap.find?_insert, if_neg different]
    rw [footer]

/-- Inputs that are not all in the directory cannot all be opened. -/
theorem openInputs_run_missing (stocked : Stocked world) (listed : Listed shape world) {inputs : List SSTableId}
    (missing : ¬ ∀ id ∈ inputs, id ∈ world.disk.sst.keys) :
    (mapEach inputs (openInput (entryFormat shape))).run .calm world = (.err missingInput, .calm, world) := by
  induction inputs with
  | nil => simp at missing
  | cons id later ih =>
    rw [mapEach]
    by_cases present : id ∈ world.disk.sst.keys
    · rw [← listed.keys] at present
      obtain ⟨row, found⟩ := SortedMap.mem_keys_iff.mp present
      obtain ⟨estimatedKeys, entries, held, positive⟩ := stocked.stored id row found
      have opened := openInput_run benign_calm held (entryFormat_create_whole shape entries positive)
      have others : ¬ ∀ other ∈ later, other ∈ world.disk.sst.keys := by
        intro all
        refine missing fun other member => ?_
        rcases List.mem_cons.mp member with same | tail
        · rw [same, ← listed.keys]
          exact present
        · exact all other tail
      exact (bind_run_ok opened).trans (bind_run_err (ih others))
    · have gone : world.disk.sst.find? id = none := SortedMap.find?_eq_none_iff.mpr present
      have unread : (readTable (entryFormat shape) World.disk id).run .calm world = (.err noSuchFile, .calm, world) := by
        rw [readTable]
        refine (bind_run_ok (call_run_done _ _ _ rfl)).trans ((bind_run_ok (getState_run _ _)).trans ?_)
        rw [gone]
        rfl
      have refused : (openInput (entryFormat shape) id).run .calm world = (.err missingInput, .calm, world) :=
        bind_run_ok (attempt_run_err unread)
      exact bind_run_err refused

/-- A task of the check that runs to its end, in an engine whose live tables are
those of the directory. -/
theorem runTask_checked (stocked : Stocked world) (listed : Listed shape world) (candidate : CompactionCandidate) :
    ∃ exit after, (runTask (entryFormat shape) ⟨candidate.inputs, world.engine.nextSstSeq,
        candidate.canDropTombstone⟩).run .calm (minted world) = (exit, .calm, after) ∧ exit ≠ .crash ∧
      Stocked after ∧ after.engine.activeMemtable = world.engine.activeMemtable ∧
      ∀ key, (liveLayers after).lookup key =
        if Compacts world.disk candidate.inputs then compactedLookup shape world.disk candidate key
        else (diskLayers world.disk).lookup key := by
  by_cases present : ∀ id ∈ candidate.inputs, id ∈ world.disk.sst.keys
  · have live := present
    rw [← listed.keys] at live
    have valid := minted_task stocked candidate.canDropTombstone live
    have readable := stocked.minted.readable valid.live
    have ready := ready_of_readable shape stocked.minted.quiet valid.live readable valid.outside
    have output : outputFile (entryFormat shape) (fun _ => .done) _ _ _ = _ :=
      outputFile_eq readable fun _ _ _ _ => by decide
    by_cases counted : possibleKeys world.disk candidate.inputs = 0
    · have rejected := entryFormat_create_zero shape
        (mergedEntries shape world.disk candidate.inputs candidate.canDropTombstone)
      rw [← counted] at rejected
      refine ⟨_, _, runTask_run_rejected benign_calm ready (output ▸ rejected), by simp [Error.isStaleVersion],
        stocked.minted.withOutput valid _, rfl, ?_⟩
      intro key
      rw [liveLayers_withOutput valid, if_neg fun compacts => compacts.2 counted, ← listed.layers]
      rfl
    · have accepted := entryFormat_create_whole shape
        (mergedEntries shape world.disk candidate.inputs candidate.canDropTombstone) counted
      obtain ⟨versionSet, quiet, files, run⟩ := runTask_run benign_calm ready (output ▸ accepted)
      rw [output] at run
      refine ⟨_, _, run, by simp, stocked.minted.compacted valid counted quiet files, rfl, ?_⟩
      intro key
      rw [liveLayers_compacted _ _ valid.outside files, if_pos ⟨present, counted⟩, compactedLookup, ← listed.layers]
      exact Layers.lookup_insert_above _ (Layers.erased_above valid.above) key
  · have missed : ¬ Compacts world.disk candidate.inputs := fun compacts => present compacts.1
    have stopped : (mapEach candidate.inputs (openInput (entryFormat shape))).run .calm (minted world) =
        (.err missingInput, .calm, minted world) := openInputs_run_missing stocked.minted listed present
    have stops : (execute (entryFormat shape) ⟨candidate.inputs, world.engine.nextSstSeq,
        candidate.canDropTombstone⟩).run .calm (minted world) = (.err missingInput, .calm, minted world) :=
      bind_run_err stopped
    refine ⟨_, _, bind_run_err stops, by simp, stocked.minted, rfl, ?_⟩
    intro key
    rw [if_neg missed, ← listed.layers]
    rfl

/-- What readers get behind the compaction check. -/
theorem doCompactWork_checked (stocked : Stocked world) (listed : Listed shape world) :
    ∃ exit after, (doCompactWork (entryFormat shape)).run .calm world = (exit, .calm, after) ∧ exit ≠ .crash ∧
      ∀ key, getInternal (entryFormat shape) after key = .ok ((world.engine.activeMemtable.get key).or
        (checkedLookup shape world.engine.policy world.disk key)) := by
  rw [doCompactWork, bind_run_ok (getState_run _ _), listed.metas]
  unfold checkedLookup
  cases world.engine.policy.pick (listedMetas shape world.disk) with
  | none =>
    refine ⟨_, world, rfl, by simp, fun key => ?_⟩
    rw [getInternal_eq stocked, view, listed.layers]
  | some candidate =>
    simp only [bind_run_ok (mintSstId_run _ _)]
    obtain ⟨exit, after, run, returns, restocked, memtable, lookups⟩ := runTask_checked stocked listed candidate
    refine ⟨exit, after, run, returns, fun key => ?_⟩
    rw [getInternal_eq restocked, view, memtable, lookups]

end

end Engine

end Enigma
