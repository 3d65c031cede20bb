import Enigma.Engine.ByteTables
import Enigma.Engine.ReadPath
import Enigma.Engine.Reopening

/-! Runs without faults over table files as bytes. `open` reads every table file of
the directory, so a single one that the reader rejects shuts the database. The
reader rejects a table that was made for no keys, and a compaction makes one when
its inputs are tables that earlier compactions left empty. -/

namespace Enigma

/-- A table with keys to come, whose index and filter together fit a 32-bit size. -/
structure FitsFormat (sizing : BloomFilter.Sizing) (table : Nat × List Entry) : Prop where
  keys : table.1 ≠ 0
  few : table.1 < 2 ^ 60
  together : indexSize table.2 + ((BloomFilter.new sizing table.1).sizeBytes + 1) < 2 ^ 32
  data : dataSize (blocksOf table.2) < 2 ^ 63

instance (sizing : BloomFilter.Sizing) (table : Nat × List Entry) : Decidable (FitsFormat sizing table) :=
  decidable_of_iff (table.1 ≠ 0 ∧ table.1 < 2 ^ 60 ∧
      indexSize table.2 + ((BloomFilter.new sizing table.1).sizeBytes + 1) < 2 ^ 32 ∧ dataSize (blocksOf table.2) < 2 ^ 63)
    ⟨fun ⟨keys, few, together, data⟩ => ⟨keys, few, together, data⟩,
      fun fits => ⟨fits.keys, fits.few, fits.together, fits.data⟩⟩

theorem FitsFormat.accepted {sizing : BloomFilter.Sizing} {table : Nat × List Entry} (fits : FitsFormat sizing table) :
    ∃ info, (byteFormat sizing).create ((byteFormat sizing).complete table.1 table.2) = .ok info := by
  have filter := mt (BloomFilter.sizeBytes_new_eq_zero_iff sizing fits.few).mp fits.keys
  have together := fits.together
  rw [← length_indexBlock sizing table.1] at together
  have kept := Nat.mod_eq_of_lt (show (BloomFilter.new sizing table.1).sizeBytes + 1 < 2 ^ 32 by omega)
  have opened := SSTableReader.create_written fits.data (by rw [kept]; omega) (by rw [kept]; exact together)
  rw [byteFormat_complete]
  simp only [byteFormat, opened]
  exact ⟨_, rfl⟩

namespace Engine

open Prog

section

variable (sizing : BloomFilter.Sizing)

def fileOf (disk : Disk Bytes) (id : SSTableId) : Bytes := (disk.sst.find? id).getD []

/-- What the footer of a table file says. -/
def infoOf (disk : Disk Bytes) (id : SSTableId) : TableInfo :=
  match (byteFormat sizing).create (fileOf disk id) with
  | .ok info => info
  | .error _ => ⟨0, 0, 0⟩

/-- The table that a compaction of these files writes: how many keys it is made
for, and its entries. -/
def compactionTable (disk : Disk Bytes) (inputs : List SSTableId) (full : Bool) : Nat × List Entry :=
  (((inputs.map (infoOf sizing disk)).map TableInfo.entryCount).sum, compactedEntries
    (inputs.map fun id => cursorOf (byteFormat sizing) (fun _ => .done) id (fileOf disk id)) full)

/-- The table that the policy would have written now. -/
def pickedTables (world : World Bytes) : List (Nat × List Entry) :=
  (world.engine.policy.pick world.engine.version.sstMetaToVector).toList.map fun candidate =>
    compactionTable sizing world.disk candidate.inputs candidate.canDropTombstone

/-- The tables that a flush writes: that of the memtable, and that of the
compaction behind it. -/
def flushTables (world : World Bytes) : List (Nat × List Entry) :=
  if world.engine.activeMemtable.count = 0 then []
  else (world.engine.activeMemtable.count, world.engine.activeMemtable.entries.bindings) ::
    pickedTables sizing ((flushMemtable (byteFormat sizing)).run .calm world).2.2

/-- The tables that a call writes. -/
def tablesWritten (world : World Bytes) : Op → List (Nat × List Entry)
  | .put key value _ timestamp =>
    let after := written world key (some value) timestamp
    if after.engine.activeMemtable.shouldFlush then flushTables sizing after else []
  | .remove key timestamp =>
    let after := written world key none timestamp
    if after.engine.activeMemtable.shouldFlush then flushTables sizing after else []
  | .flush => flushTables sizing world
  | .doCompactWork => pickedTables sizing world
  | .compactNow =>
    if world.engine.version.sstMetaToVector = [] then [] else [compactionTable sizing world.disk (allInputs world) true]
  | .setCompactionPolicy _ _ _ _ => []

def stepBytes (world : World Bytes) (op : Op) : World Bytes := ((op.prog (byteFormat sizing)).run .calm world).2.2

def runBytes (world : World Bytes) (ops : List Op) : World Bytes := ops.foldl (stepBytes sizing) world

/-- A policy that the call sets has a width for which a vector has room. -/
def Op.Roomy : Op → Prop
  | .setCompactionPolicy _ maxMergeWidth _ _ => maxMergeWidth ≤ SizeTiered.maxSize
  | _ => True

instance (op : Op) : Decidable op.Roomy := by
  cases op <;> unfold Op.Roomy <;> infer_instance

/-- Every table that the run writes fits the format, and no policy throws. -/
def FittingRun : World Bytes → List Op → Prop
  | _, [] => True
  | world, op :: ops => op.Roomy ∧ (∀ table ∈ tablesWritten sizing world op, FitsFormat sizing table) ∧
      FittingRun (stepBytes sizing world op) ops

instance fittingRunDecidable : (world : World Bytes) → (ops : List Op) → Decidable (FittingRun sizing world ops)
  | _, [] => .isTrue trivial
  | world, op :: ops =>
    haveI := fittingRunDecidable (stepBytes sizing world op) ops
    inferInstanceAs (Decidable (op.Roomy ∧ (∀ table ∈ tablesWritten sizing world op, FitsFormat sizing table) ∧ _))

def EveryCallOk : World Bytes → List Op → Prop
  | _, [] => True
  | world, op :: ops => ((op.prog (byteFormat sizing)).run .calm world).1 = .ok () ∧
      EveryCallOk (stepBytes sizing world op) ops

end

def AllAccepted (disk : Disk Bytes) : Prop :=
  ∀ id file, disk.sst.find? id = some file → ∃ reader, SSTableReader.create file = .ok reader

/-- The two policies of the code, the size-tiered one with a width for which a vector
has room. -/
def Standard (policy : CompactionPolicy) : Prop :=
  (∃ minMergeWidth maxMergeWidth bucketLow bucketHigh, maxMergeWidth ≤ SizeTiered.maxSize ∧
    policy = sizeTieredCompactionPolicy minMergeWidth maxMergeWidth bucketLow bucketHigh) ∨ policy = fullCompactionPolicy

/-- Every table file is accepted, and every live table has one. -/
structure Sturdy (world : World Bytes) : Prop where
  quiet : world.engine.versionSet.Quiet
  named : ∀ id row, world.engine.version.files.find? id = some row → row.id = id
  present : ∀ id ∈ world.engine.version.files.keys, ∃ file, world.disk.sst.find? id = some file
  below : ∀ id ∈ world.engine.version.files.keys, id < world.engine.nextSstSeq
  accepted : AllAccepted world.disk
  standard : Standard world.engine.policy

section

variable {sizing : BloomFilter.Sizing} {world : World Bytes}

variable (sizing) in
theorem byteFormat_create_ok {file : Bytes} : (∃ info, (byteFormat sizing).create file = .ok info) ↔
    ∃ reader, SSTableReader.create file = .ok reader := by
  simp only [byteFormat]
  cases SSTableReader.create file with
  | ok reader => exact ⟨fun _ => ⟨reader, rfl⟩, fun _ => ⟨_, rfl⟩⟩
  | error error =>
    constructor
    · rintro ⟨_, found⟩
      cases found
    · rintro ⟨_, found⟩
      cases found

theorem pick_inputs {policy : CompactionPolicy} (standard : Standard policy) {live : List SSTableMeta}
    {candidate : CompactionCandidate} (picked : policy.pick live = some candidate) :
    ∀ id ∈ candidate.inputs, id ∈ live.map SSTableMeta.id := by
  rcases standard with ⟨_, _, _, _, _, tiered⟩ | full
  · rw [tiered] at picked
    exact (SizeTiered.pick_spec (sizeTiered_pick_iff.mp picked)).1
  · rw [full] at picked
    simp only [fullCompactionPolicy] at picked
    split at picked
    · cases picked
    · cases picked
      exact fun _ member => member

theorem Sturdy.ready (sturdy : Sturdy world) {task : CompactionTask} (valid : Task world task) :
    Ready (byteFormat sizing) world task (fileOf world.disk) (infoOf sizing world.disk) where
  quiet := sturdy.quiet
  live := by
    intro id member
    obtain ⟨row, found⟩ := SortedMap.mem_keys_iff.mp (valid.live id member)
    simp [found]
  present := by
    intro id member
    obtain ⟨file, found⟩ := sturdy.present id (valid.live id member)
    simp [fileOf, found]
  accepted := by
    intro id member
    obtain ⟨file, found⟩ := sturdy.present id (valid.live id member)
    obtain ⟨info, accepted⟩ := (byteFormat_create_ok sizing).mpr (sturdy.accepted id file found)
    simp [infoOf, fileOf, found, accepted]
  fresh := valid.outside

/-- One more accepted table, in the place of some or none of the others. -/
theorem Sturdy.published (sturdy : Sturdy world) {after : World Bytes} {inputs : List SSTableId} {outputId : SSTableId}
    {file : Bytes} {info : TableInfo} (accepted : (byteFormat sizing).create file = .ok info) (outside : outputId ∉ inputs)
    (tables : after.disk.sst = inputs.foldl SortedMap.erase (world.disk.sst.insert outputId file))
    (files : after.engine.version.files =
      (inputs.foldl SortedMap.erase world.engine.version.files).insert outputId (tableMeta outputId info))
    (quiet : after.engine.versionSet.Quiet) (minted : outputId < after.engine.nextSstSeq)
    (counter : world.engine.nextSstSeq ≤ after.engine.nextSstSeq) (standard : Standard after.engine.policy) :
    Sturdy after := by
  have live : ∀ id row, after.engine.version.files.find? id = some row →
      (id = outputId ∧ row = tableMeta outputId info) ∨
        id ≠ outputId ∧ id ∉ inputs ∧ world.engine.version.files.find? id = some row := by
    intro id row found
    rw [files, SortedMap.find?_insert, SortedMap.foldl_erase_find?] at found
    split at found
    · cases found
      exact .inl ⟨‹_›, rfl⟩
    · split at found
      · cases found
      · exact .inr ⟨‹_›, ‹_›, found⟩
  have stored : ∀ id, after.disk.sst.find? id = if id ∈ inputs then none else if id = outputId then some file else
      world.disk.sst.find? id := by
    intro id
    rw [tables, SortedMap.foldl_erase_find?, SortedMap.find?_insert]
  refine ⟨quiet, ?_, ?_, ?_, ?_, standard⟩
  · intro id row found
    rcases live id row found with ⟨output, same⟩ | ⟨_, _, before⟩
    · rw [output, same]
      rfl
    · exact sturdy.named id row before
  · intro id member
    obtain ⟨row, found⟩ := SortedMap.mem_keys_iff.mp member
    rcases live id row found with ⟨output, _⟩ | ⟨other, kept, before⟩
    · exact ⟨file, by simp [stored, output, outside]⟩
    · obtain ⟨old, present⟩ := sturdy.present id (SortedMap.mem_keys_iff.mpr ⟨row, before⟩)
      exact ⟨old, by simp [stored, other, kept, present]⟩
  · intro id member
    obtain ⟨row, found⟩ := SortedMap.mem_keys_iff.mp member
    rcases live id row found with ⟨output, _⟩ | ⟨_, _, before⟩
    · exact output ▸ minted
    · exact (sturdy.below id (SortedMap.mem_keys_iff.mpr ⟨row, before⟩)).trans_le counter
  · intro id other found
    rw [stored] at found
    split at found
    · cases found
    · split at found
      · cases found
        exact (byteFormat_create_ok sizing).mp ⟨info, accepted⟩
      · exact sturdy.accepted id other found

/-- A task whose output fits the format is installed. -/
theorem runTask_sturdy (sturdy : Sturdy world) {task : CompactionTask} (valid : Task world task)
    (fits : FitsFormat sizing (compactionTable sizing world.disk task.inputs task.canDropTombstone)) :
    ∃ after, (runTask (byteFormat sizing) task).run .calm world = (.ok (some task.outputId), .calm, after) ∧
      Sturdy after := by
  obtain ⟨info, accepted⟩ := fits.accepted
  obtain ⟨versionSet, quiet, files, run⟩ := runTask_run benign_calm (sturdy.ready valid) accepted
  exact ⟨_, run, sturdy.published accepted valid.outside rfl files quiet valid.minted le_rfl sturdy.standard⟩

theorem Sturdy.minted (sturdy : Sturdy world) : Sturdy (minted world) :=
  { sturdy with below := fun id member => (sturdy.below id member).trans (Nat.lt_succ_self _) }

theorem Sturdy.mintedTask (sturdy : Sturdy world) {inputs : List SSTableId} (full : Bool)
    (live : ∀ id ∈ inputs, id ∈ world.engine.version.files.keys) :
    Task (Engine.minted world) ⟨inputs, world.engine.nextSstSeq, full⟩ :=
  ⟨live, sturdy.below, Nat.lt_succ_self _⟩

theorem doCompactWork_sturdy (sturdy : Sturdy world) (fits : ∀ table ∈ pickedTables sizing world, FitsFormat sizing table) :
    ∃ value after, (doCompactWork (byteFormat sizing)).run .calm world = (.ok value, .calm, after) ∧ Sturdy after := by
  rw [doCompactWork, bind_run_ok (getState_run _ _)]
  cases picked : world.engine.policy.pick world.engine.version.sstMetaToVector with
  | none => exact ⟨_, world, rfl, sturdy⟩
  | some candidate =>
    have live := pick_inputs sturdy.standard picked
    rw [Version.metas_ids sturdy.named] at live
    simp only [bind_run_ok (mintSstId_run _ _)]
    have output : FitsFormat sizing (compactionTable sizing world.disk candidate.inputs candidate.canDropTombstone) :=
      fits _ (by simp [pickedTables, picked])
    obtain ⟨after, run, kept⟩ := runTask_sturdy sturdy.minted (sturdy.mintedTask candidate.canDropTombstone live) output
    exact ⟨_, after, run, kept⟩

theorem compactNow_sturdy (sturdy : Sturdy world)
    (fits : ∀ table ∈ tablesWritten sizing world .compactNow, FitsFormat sizing table) :
    ∃ value after, (compactNow (byteFormat sizing)).run .calm world = (.ok value, .calm, after) ∧ Sturdy after := by
  rw [compactNow, bind_run_ok (getState_run _ _), ite_run]
  split
  · exact ⟨_, world, rfl, sturdy⟩
  · rename_i filled
    have live : ∀ id ∈ allInputs world, id ∈ world.engine.version.files.keys := by
      intro id member
      rwa [allInputs, List.mem_insertionSort, Version.metas_ids sturdy.named] at member
    rw [bind_run_ok (mintSstId_run _ _)]
    have output : FitsFormat sizing (compactionTable sizing world.disk (allInputs world) true) :=
      fits _ (by simp [tablesWritten, filled])
    obtain ⟨after, run, kept⟩ := runTask_sturdy sturdy.minted (sturdy.mintedTask true live) output
    exact ⟨_, after, run, kept⟩

/-- A flush up to the compaction behind it. -/
theorem flushMemtable_sturdy (sturdy : Sturdy world)
    (fits : FitsFormat sizing (world.engine.activeMemtable.count, world.engine.activeMemtable.entries.bindings)) :
    ∃ after, (flushMemtable (byteFormat sizing)).run .calm world = (.ok (), .calm, after) ∧ Sturdy after := by
  obtain ⟨info, accepted⟩ := fits.accepted
  obtain ⟨versionSet, quiet, files, run⟩ := flushMemtable_run benign_calm sturdy.quiet accepted
  refine ⟨_, run, sturdy.published accepted (List.not_mem_nil (a := world.engine.nextSstSeq)) ?_ files quiet
    (Nat.lt_succ_self _) (Nat.le_succ _) sturdy.standard⟩
  rw [flushedWorld, Disk.dropWal_sst, Disk.openWal_sst, Disk.putTable_sst]
  rfl

theorem flush_sturdy (sturdy : Sturdy world) (fits : ∀ table ∈ flushTables sizing world, FitsFormat sizing table) :
    ∃ after, (flush (byteFormat sizing)).run .calm world = (.ok (), .calm, after) ∧ Sturdy after := by
  by_cases filled : world.engine.activeMemtable.count = 0
  · exact ⟨world, flush_empty filled .calm, sturdy⟩
  · simp only [flushTables, filled, ↓reduceIte] at fits
    obtain ⟨flushed, run, stays⟩ := flushMemtable_sturdy sturdy (fits _ (by simp))
    rw [run] at fits
    obtain ⟨value, after, compacted, kept⟩ := doCompactWork_sturdy stays fun table member => fits table (by simp [member])
    exact ⟨after, (flush_run filled run).trans (bind_run_ok (attempt_run_ok compacted)), kept⟩

theorem write_sturdy (sturdy : Sturdy world) (key : Key) (value : Option Bytes) (timestamp : Nat)
    (fits : ∀ table ∈ if (written world key value timestamp).engine.activeMemtable.shouldFlush then
      flushTables sizing (written world key value timestamp) else [], FitsFormat sizing table) :
    ∃ after, (write (byteFormat sizing) key value timestamp).run .calm world = (.ok (), .calm, after) ∧ Sturdy after := by
  have stored : Sturdy (written world key value timestamp) := {
    quiet := sturdy.quiet
    named := sturdy.named
    present := by
      intro id member
      rw [written, Disk.appendWal_sst]
      exact sturdy.present id member
    below := sturdy.below
    accepted := by
      intro id file found
      rw [written, Disk.appendWal_sst] at found
      exact sturdy.accepted id file found
    standard := sturdy.standard }
  have run := write_run (byteFormat sizing) benign_calm world key value timestamp
  by_cases full : (written world key value timestamp).engine.activeMemtable.shouldFlush
  · simp only [full, ↓reduceIte] at fits run
    obtain ⟨after, flushed, kept⟩ := flush_sturdy stored fits
    exact ⟨after, run.trans flushed, kept⟩
  · simp only [full] at run
    exact ⟨_, run, stored⟩

/-- One call: it returns ok, and every table file stays accepted. -/
theorem op_sturdy (sturdy : Sturdy world) (op : Op) (roomy : op.Roomy)
    (fits : ∀ table ∈ tablesWritten sizing world op, FitsFormat sizing table) :
    ∃ after, (op.prog (byteFormat sizing)).run .calm world = (.ok (), .calm, after) ∧ Sturdy after := by
  cases op with
  | put key value filled timestamp =>
    obtain ⟨after, run, kept⟩ := write_sturdy sturdy key (some value) timestamp fits
    refine ⟨after, ?_, kept⟩
    simp only [Op.prog, Engine.put, filled, ↓reduceIte, run]
  | remove key timestamp => exact write_sturdy sturdy key none timestamp fits
  | flush => exact flush_sturdy sturdy fits
  | doCompactWork =>
    obtain ⟨value, after, run, kept⟩ := doCompactWork_sturdy sturdy fits
    exact ⟨after, bind_run_ok run, kept⟩
  | compactNow =>
    obtain ⟨value, after, run, kept⟩ := compactNow_sturdy sturdy fits
    exact ⟨after, bind_run_ok run, kept⟩
  | setCompactionPolicy minMergeWidth maxMergeWidth bucketLow bucketHigh =>
    exact ⟨_, rfl, { sturdy with standard := .inl ⟨minMergeWidth, maxMergeWidth, bucketLow, bucketHigh, roomy, rfl⟩ }⟩

theorem run_sturdy (ops : List Op) (sturdy : Sturdy world) (fits : FittingRun sizing world ops) :
    EveryCallOk sizing world ops ∧ Sturdy (runBytes sizing world ops) := by
  induction ops generalizing world with
  | nil => exact ⟨trivial, sturdy⟩
  | cons op later ih =>
    obtain ⟨roomy, first, rest⟩ := fits
    obtain ⟨after, run, kept⟩ := op_sturdy sturdy op roomy first
    have stepped : stepBytes sizing world op = after := by rw [stepBytes, run]
    rw [stepped] at rest
    obtain ⟨ok, final⟩ := ih kept rest
    refine ⟨⟨by rw [run], by rw [stepped]; exact ok⟩, ?_⟩
    rw [runBytes, List.foldl_cons, stepped]
    exact final

/-- Whatever becomes of its output, a compaction without faults returns. -/
theorem doCompactWork_returns (sizing : BloomFilter.Sizing) (sturdy : Sturdy world) :
    ∃ exit after, (doCompactWork (byteFormat sizing)).run .calm world = (exit, .calm, after) ∧ exit ≠ .crash := by
  rw [doCompactWork, bind_run_ok (getState_run _ _)]
  cases picked : world.engine.policy.pick world.engine.version.sstMetaToVector with
  | none => exact ⟨_, world, rfl, by simp⟩
  | some candidate =>
    have live := pick_inputs sturdy.standard picked
    rw [Version.metas_ids sturdy.named] at live
    have ready : Ready (byteFormat sizing) _ _ _ _ :=
      sturdy.minted.ready (sturdy.mintedTask candidate.canDropTombstone live)
    simp only [bind_run_ok (mintSstId_run _ _)]
    cases answer : (byteFormat sizing).create (outputFile (byteFormat sizing) (fun _ => .done) (fileOf world.disk)
        (infoOf sizing world.disk) ⟨candidate.inputs, world.engine.nextSstSeq, candidate.canDropTombstone⟩) with
    | ok info =>
      obtain ⟨versionSet, _, _, run⟩ := runTask_run benign_calm ready answer
      exact ⟨_, _, run, by simp⟩
    | error error => exact ⟨_, _, runTask_run_rejected benign_calm ready answer, by split <;> simp⟩

/-- The table that recovery makes of the log, if it makes one. -/
def recoveredTables (config : Config) (disk : Disk Bytes) : List (Nat × List Entry) :=
  if 0 < (recoveredMemtable config disk).approximateSize ∧ (recoveredMemtable config disk).count ≠ 0 then
    [((recoveredMemtable config disk).count, (recoveredMemtable config disk).entries.bindings)]
  else []

/-- The tables that `open` takes as live. -/
def foundMetas (sizing : BloomFilter.Sizing) (disk : Disk Bytes) : List SSTableMeta :=
  disk.sst.keys.map fun id => tableMeta id (infoOf sizing disk id)

/-- The state of `open` once the log is in the memtable. -/
def recoveredWorld (sizing : BloomFilter.Sizing) (config : Config) (disk : Disk Bytes) : World Bytes :=
  replayedWorld (bootWorld config disk (foundMetas sizing disk)) (foundRecords disk.wal.bindings)

/-- All tables that `open` writes: that of the log, and that of the compaction
behind it. -/
def openTables (sizing : BloomFilter.Sizing) (config : Config) (disk : Disk Bytes) : List (Nat × List Entry) :=
  if 0 < (recoveredMemtable config disk).approximateSize then
    flushTables sizing (recoveredWorld sizing config disk)
  else []

/-- Whatever becomes of the compaction behind it, the flush succeeds. -/
theorem flush_returns (sturdy : Sturdy world) (fits : world.engine.activeMemtable.count ≠ 0 →
      FitsFormat sizing (world.engine.activeMemtable.count, world.engine.activeMemtable.entries.bindings)) :
    ∃ after, (flush (byteFormat sizing)).run .calm world = (.ok (), .calm, after) := by
  by_cases filled : world.engine.activeMemtable.count = 0
  · exact ⟨world, flush_empty filled .calm⟩
  · obtain ⟨flushed, run, stays⟩ := flushMemtable_sturdy sturdy (fits filled)
    obtain ⟨exit, after, compacted, returns⟩ := doCompactWork_returns sizing stays
    refine ⟨after, (flush_run filled run).trans ?_⟩
    cases exit with
    | ok value => exact bind_run_ok (attempt_run_ok compacted)
    | err error => exact bind_run_ok (attempt_run_err compacted)
    | crash => exact absurd rfl returns

theorem foundMetas_read {disk : Disk Bytes} (accepted : AllAccepted disk) :
    List.Forall₂ (ReadFrom (byteFormat sizing) disk) disk.sst.keys (foundMetas sizing disk) := by
  rw [foundMetas, List.forall₂_map_right_iff, List.forall₂_same]
  intro id member
  obtain ⟨file, present⟩ := SortedMap.mem_keys_iff.mp member
  obtain ⟨info, opens⟩ := (byteFormat_create_ok sizing).mpr (accepted id file present)
  exact ⟨file, info, present, opens, by simp [infoOf, fileOf, present, opens]⟩

theorem bootWorld_sturdy {disk : Disk Bytes} (accepted : AllAccepted disk) {config : Config}
    (standard : Standard config.policy) : Sturdy (bootWorld config disk (foundMetas sizing disk)) where
  quiet := VersionSet.new_quiet _
  named := fun id row found => (foundFiles_read (foundMetas_read accepted) found).named
  present := by
    intro id member
    rw [bootWorld, Disk.openWal_sst]
    exact SortedMap.mem_keys_iff.mp ((foundFiles_keys (foundMetas_read accepted) id).mp member)
  below := fun id member => Nat.lt_succ_of_le (le_highestOf ((foundFiles_keys (foundMetas_read accepted) id).mp member))
  accepted := by
    intro id file found
    rw [bootWorld, Disk.openWal_sst] at found
    exact accepted id file found
  standard := standard

/-- Recovery, when its flush returns. -/
theorem recover_returns {flushed : World Bytes}
    (run : (flushRecovered (byteFormat sizing)).run .calm (replayedWorld world (foundRecords (oldWalFiles world))) =
      (.ok (), .calm, flushed)) : ∃ found after, (recover (byteFormat sizing)).run .calm world = (.ok found, .calm, after) ∧
        (Sturdy world → Sturdy flushed → Sturdy after) := by
  rw [recover, bind_run_ok (getState_run _ _), ite_run]
  change ∃ found after, (if oldWalFiles world = [] then _ else _) = _ ∧ _
  split
  · exact ⟨0, world, rfl, fun sturdy _ => sturdy⟩
  · have replay := replaySegments_run (oldWalFiles world) 0 world
    generalize highestSeen 0 (foundRecords (oldWalFiles world)) = found at replay
    obtain ⟨dropped, drops, tables, engine⟩ := dropWals_calm (oldWalFiles world) flushed
    refine ⟨found, { dropped with engine := { dropped.engine with lsn := max dropped.engine.lsn found + 1 } }, ?_, ?_⟩
    · refine (bind_run_ok replay).trans ((bind_run_ok run).trans ((bind_run_ok drops).trans ?_))
      exact bind_run_ok (onEngine_run _ _ _)
    · intro _ sturdy
      obtain ⟨disk, memory⟩ := dropped
      simp only at tables engine
      subst engine
      exact { sturdy with
        present := by
          intro id member
          rw [tables]
          exact sturdy.present id member
        accepted := by
          intro id file present
          rw [tables] at present
          exact sturdy.accepted id file present }

/-- `open` is recovery on the state that it reads from the directory. -/
theorem open_returns {disk : Disk Bytes} (accepted : AllAccepted disk) {config : Config} {found : Nat} {after : World Bytes}
    (run : (recover (byteFormat sizing)).run .calm (bootWorld config disk (foundMetas sizing disk)) =
      (.ok found, .calm, after)) :
    (Engine.open (byteFormat sizing) config).run .calm disk = (.ok after.engine, .calm, after.disk) := by
  have reads : ∀ id ∈ disk.sst.keys,
      (readMeta (byteFormat sizing) id).run .calm disk = (.ok (tableMeta id (infoOf sizing disk id)), .calm, disk) := by
    intro id member
    obtain ⟨file, present⟩ := SortedMap.mem_keys_iff.mp member
    obtain ⟨info, opens⟩ := (byteFormat_create_ok sizing).mpr (accepted id file present)
    rw [readMeta_calm _ present, opens]
    simp [infoOf, fileOf, present, opens]
  exact open_run (mapEach_run disk reads) run

/-- `open` succeeds on a directory of accepted tables, if it can flush what it
recovers. -/
theorem open_accepted {disk : Disk Bytes} (accepted : AllAccepted disk) {config : Config}
    (standard : Standard config.policy) (fits : ∀ table ∈ recoveredTables config disk, FitsFormat sizing table) :
    ∃ engine after, (Engine.open (byteFormat sizing) config).run .calm disk = (.ok engine, .calm, after) := by
  have booted : Sturdy (bootWorld config disk (foundMetas sizing disk)) := bootWorld_sturdy accepted standard
  have replayed : Sturdy (recoveredWorld sizing config disk) := { booted with }
  have flushes : ∃ flushed, (flushRecovered (byteFormat sizing)).run .calm
      (recoveredWorld sizing config disk) = (.ok (), .calm, flushed) := by
    rw [flushRecovered, bind_run_ok (getState_run _ _), ite_run]
    change ∃ flushed, (if 0 < (recoveredMemtable config disk).approximateSize then _ else _) = _
    split
    · rename_i large
      refine flush_returns replayed ?_
      intro filled
      change (recoveredMemtable config disk).count ≠ 0 at filled
      refine fits _ ?_
      rw [recoveredTables, if_pos ⟨large, filled⟩]
      exact List.mem_singleton.mpr rfl
    · exact ⟨_, rfl⟩
  obtain ⟨flushed, run⟩ := flushes
  rw [recoveredWorld, ← oldWalFiles_boot] at run
  obtain ⟨found, after, recovered, _⟩ := recover_returns run
  exact ⟨_, _, open_returns accepted recovered⟩

/-- If all that it writes fits the format, `open` also leaves only accepted tables. -/
theorem open_sturdy {disk : Disk Bytes} (accepted : AllAccepted disk) {config : Config}
    (standard : Standard config.policy) (fits : ∀ table ∈ openTables sizing config disk, FitsFormat sizing table) :
    ∃ engine after, (Engine.open (byteFormat sizing) config).run .calm disk = (.ok engine, .calm, after) ∧
      Sturdy ⟨after, engine⟩ := by
  have booted : Sturdy (bootWorld config disk (foundMetas sizing disk)) := bootWorld_sturdy accepted standard
  have replayed : Sturdy (recoveredWorld sizing config disk) := { booted with }
  have flushes : ∃ flushed, (flushRecovered (byteFormat sizing)).run .calm
      (recoveredWorld sizing config disk) = (.ok (), .calm, flushed) ∧
        Sturdy flushed := by
    rw [flushRecovered, bind_run_ok (getState_run _ _), ite_run]
    rw [openTables] at fits
    change ∃ flushed, (if 0 < (recoveredMemtable config disk).approximateSize then _ else _) = _ ∧ _
    split
    · rename_i large
      rw [if_pos large] at fits
      exact flush_sturdy replayed fits
    · exact ⟨_, rfl, replayed⟩
  obtain ⟨flushed, run, stays⟩ := flushes
  rw [recoveredWorld, ← oldWalFiles_boot] at run
  obtain ⟨found, after, recovered, kept⟩ := recover_returns run
  exact ⟨_, _, open_returns accepted recovered, kept booted stays⟩

/-- In a session without faults whose tables all fit the format every call returns
ok, every table file stays accepted, and a later `open` succeeds. -/
theorem fault_free_runs_stay_openable {config : Config} {disk : Disk Bytes} {ops : List Op} {opened : World Bytes}
    (accepted : AllAccepted disk) (standard : Standard config.policy)
    (start : (Engine.open (byteFormat sizing) config).run .calm disk = (.ok opened.engine, .calm, opened.disk))
    (fitsOpen : ∀ table ∈ openTables sizing config disk, FitsFormat sizing table)
    (fits : FittingRun sizing opened ops) :
    EveryCallOk sizing opened ops ∧ AllAccepted (runBytes sizing opened ops).disk ∧
      ∀ later : Config, Standard later.policy →
        (∀ table ∈ recoveredTables later (runBytes sizing opened ops).disk, FitsFormat sizing table) →
        ∃ engine after, (Engine.open (byteFormat sizing) later).run .calm (runBytes sizing opened ops).disk =
          (.ok engine, .calm, after) := by
  obtain ⟨engine, after, opens, sturdy⟩ := open_sturdy accepted standard fitsOpen
  rw [start] at opens
  cases opens
  obtain ⟨ok, final⟩ := run_sturdy ops sturdy fits
  refine ⟨ok, final.accepted, ?_⟩
  intro later policy tables
  exact open_accepted final.accepted policy tables

end

/-- A new database under the full compaction policy. -/
def freshBytes : World Bytes :=
  ⟨⟨.empty, SortedMap.empty.insert 1 []⟩, bootstrap ⟨1000, fullCompactionPolicy⟩ [] [] []⟩

/-- A value and a tombstone are flushed and compacted, and the rest is in the log. -/
theorem fault_free_runs_stay_openable_compacted :
    let ops : List Op := [.put [1] [10] (by simp) 0, .remove [2] 0, .flush, .put [3] [30] (by simp) 0]
    EveryCallOk nominalSizing freshBytes ops ∧ AllAccepted (runBytes nominalSizing freshBytes ops).disk ∧
      ∃ engine after, (Engine.open (byteFormat nominalSizing) ⟨1000, fullCompactionPolicy⟩).run .calm
        (runBytes nominalSizing freshBytes ops).disk = (.ok engine, .calm, after) := by
  intro ops
  have none : AllAccepted .empty := fun id file found => by cases found
  obtain ⟨calls, accepted, opens⟩ := fault_free_runs_stay_openable none (.inr rfl) (open_empty _ _) (by decide +kernel)
    (show FittingRun nominalSizing freshBytes ops by decide +kernel)
  exact ⟨calls, accepted, opens _ (.inr rfl) (by decide +kernel)⟩

/-- The compaction behind the flush drops the only entry, a tombstone. Compacting
the empty table makes one that the reader rejects: the call fails, and so does
every later `open`. -/
theorem empty_table_shuts_database :
    (Engine.open (byteFormat nominalSizing) ⟨1000, fullCompactionPolicy⟩).run .calm .empty =
        (.ok freshBytes.engine, .calm, freshBytes.disk) ∧
      ¬ EveryCallOk nominalSizing freshBytes [.remove [1] 0, .flush, .doCompactWork] ∧
      ¬ AllAccepted (runBytes nominalSizing freshBytes [.remove [1] 0, .flush, .doCompactWork]).disk ∧
      ∀ config, ∃ error, (Engine.open (byteFormat nominalSizing) config).run .calm
        (runBytes nominalSizing freshBytes [.remove [1] 0, .flush, .doCompactWork]).disk = (.err error, .calm,
          (runBytes nominalSizing freshBytes [.remove [1] 0, .flush, .doCompactWork]).disk) := by
  have answer : ((runBytes nominalSizing freshBytes [.remove [1] 0, .flush, .doCompactWork]).disk.sst.find? 3).map
      (byteFormat nominalSizing).create = some (.error ⟨.badConfig, "invalid filter block size"⟩) := by
    decide +kernel
  obtain ⟨file, found, rejected⟩ := Option.map_eq_some_iff.mp answer
  refine ⟨open_empty _ _, ?_, ?_, fun config => open_rejected found rejected config⟩
  · rintro ⟨_, _, compacted, _⟩
    revert compacted
    decide +kernel
  · intro accepted
    obtain ⟨info, opens⟩ := (byteFormat_create_ok nominalSizing).mpr (accepted 3 file found)
    rw [rejected] at opens
    cases opens

end Engine

end Enigma
