import Enigma.Engine.Dazzle

/-! What each operation does when no call fails, block reads of an iterator
apart. Those may fail by any fixed pattern; the equations carry it along. -/

namespace Enigma

namespace Engine

open Prog

/-- No call fails or crashes, block reads apart, and those never crash. -/
structure Benign (fate : Call → Fate) : Prop where
  done : ∀ kind, (∀ id block, kind ≠ .readBlock id block) → fate kind = .done
  returns : ∀ id block, fate (.readBlock id block) ≠ .crashed

theorem benign_calm : Benign (fun _ => .done) := ⟨fun _ _ => rfl, fun _ _ => by decide⟩

section

variable {F : Type} {fate : Call → Fate} (benign : Benign fate)

theorem mintSstId_run (script : Script Call) (world : World F) :
    mintSstId.run script world = (.ok world.engine.nextSstSeq, script,
      { world with engine := { world.engine with nextSstSeq := world.engine.nextSstSeq + 1 } }) := rfl

theorem mintWalId_run (script : Script Call) (world : World F) :
    mintWalId.run script world = (.ok world.engine.nextWalSeq, script,
      { world with engine := { world.engine with nextWalSeq := world.engine.nextWalSeq + 1 } }) := rfl

theorem bumpLsnSequence_run (script : Script Call) (world : World F) :
    bumpLsnSequence.run script world = (.ok world.engine.lsn, script,
      { world with engine := { world.engine with lsn := world.engine.lsn + 1 } }) := rfl

theorem onEngine_run (change : Dazzle → Dazzle) (script : Script Call) (world : World F) :
    (onEngine change).run script world = (.ok (), script, { world with engine := change world.engine }) := rfl

include benign

theorem passive_run {σ : Type} {kind : Call} (state : σ) (plain : ∀ id block, kind ≠ .readBlock id block) :
    (passive kind).run (.always fate) state = (.ok (), .always fate, state) :=
  call_run_done _ _ _ (benign.done kind plain)

theorem onDisk_run {kind : Call} (effect : Disk F → Disk F) (world : World F)
    (plain : ∀ id block, kind ≠ .readBlock id block) :
    (onDisk kind effect).run (.always fate) world =
      (.ok (), .always fate, { world with disk := effect world.disk }) :=
  call_run_done _ _ _ (benign.done kind plain)

theorem reclaim_run (ids : List SSTableId) (world : World F) :
    (reclaim ids).run (.always fate) world = (.ok (), .always fate,
      { world with disk := { world.disk with sst := ids.foldl SortedMap.erase world.disk.sst } }) := by
  induction ids generalizing world with
  | nil => rfl
  | cons id rest ih =>
    have first : (do
        let _ ← attempt (onDisk .unlink (Disk.dropTable id))
        return () : Prog Call Error (World F) Unit).run (.always fate) world =
        (.ok (), .always fate, { world with disk := world.disk.dropTable id }) := by
      rw [bind_run_ok (attempt_run_ok (onDisk_run benign _ _ (by simp))), pure_run]
    rw [reclaim, forEach, bind_run_ok first]
    exact ih _

/-- A published edit: the new file map, and the removed files gone. -/
theorem applyEdit_run {world : World F} (edit : VersionEdit) (quiet : world.engine.versionSet.Quiet)
    (live : ∀ id ∈ edit.removed, (world.engine.version.files.find? id).isSome)
    (replaced : ∀ id ∈ edit.removed, (VersionSet.edited world.engine.version.files edit).find? id = none) :
    ∃ versionSet : VersionSet, versionSet.Quiet ∧
      versionSet.currentVersion.files = VersionSet.edited world.engine.version.files edit ∧
      (applyEdit edit).run (.always fate) world = (.ok (), .always fate,
        { disk := { world.disk with sst := edit.removed.foldl SortedMap.erase world.disk.sst }
          engine := { world.engine with versionSet := versionSet } }) := by
  obtain ⟨ids, after, applied, afterQuiet, files, _, members⟩ := VersionSet.apply_quiet edit quiet live replaced
  refine ⟨after, afterQuiet, files, ?_⟩
  have erased : ids.foldl SortedMap.erase world.disk.sst = edit.removed.foldl SortedMap.erase world.disk.sst := by
    apply SortedMap.ext_find?
    intro id
    simp only [SortedMap.foldl_erase_find?, members]
  rw [applyEdit, bind_run_ok (getState_run _ _)]
  simp only [applied]
  rw [bind_run_ok (onEngine_run _ _ _), reclaim_run benign]
  simp only [erased]

/-- An edit that only adds a table touches no file. -/
theorem installFlushedSst_run (world : World F) (table : SSTableMeta) (quiet : world.engine.versionSet.Quiet) :
    ∃ versionSet : VersionSet, versionSet.Quiet ∧
      versionSet.currentVersion.files = world.engine.version.files.insert table.id table ∧
      (installFlushedSst table).run (.always fate) world = (.ok (), .always fate,
        { world with engine := { world.engine with versionSet := versionSet } }) :=
  applyEdit_run benign ⟨[], [table]⟩ quiet (by simp) (by simp)

end

variable {F : Type} {format : TableFormat F} {fate : Call → Fate} (benign : Benign fate)

/-- What an iterator over a table delivers under the pattern. -/
def cursorOf (format : TableFormat F) (fate : Call → Fate) (id : SSTableId) (file : F) : Cursor :=
  format.scan file fun block =>
    if block < format.blockCount file ∧ fate (.readBlock id block) = .failed then some (Call.error (.readBlock id block))
    else none

include benign

variable (format) in
theorem readTable_run {σ : Type} (disk : σ → Disk F) {id : SSTableId} {file : F} {state : σ}
    (present : (disk state).sst.find? id = some file) :
    (readTable format disk id).run (.always fate) state =
      ((match format.create file with
        | .error error => .err error
        | .ok info => .ok info), .always fate, state) := by
  rw [readTable, bind_run_ok (passive_run benign _ (by simp)), bind_run_ok (getState_run _ _)]
  simp only [present]
  rw [bind_run_ok (passive_run benign _ (by simp)), bind_run_ok (passive_run benign _ (by simp)),
    bind_run_ok (passive_run benign _ (by simp))]
  cases format.create file <;> rfl

theorem writeTable_run (id : SSTableId) (estimatedKeys : Nat) (entries : List Entry) (world : World F) :
    (writeTable format id estimatedKeys entries).run (.always fate) world = (.ok (), .always fate,
      { world with disk := world.disk.putTable id (format.complete estimatedKeys entries) }) := by
  have loop : ∀ (files : List F) (first : F),
      (forEach files (fun file => onDisk .append (Disk.putTable id file))).run (.always fate)
        { world with disk := world.disk.putTable id first } = (.ok (), .always fate,
          { world with disk := world.disk.putTable id (files.getLast?.getD first) }) := by
    intro files
    induction files with
    | nil => exact fun _ => rfl
    | cons file later ih =>
      intro first
      have replaced : (world.disk.putTable id first).putTable id file = world.disk.putTable id file := by
        simp [Disk.putTable]
      rw [forEach, bind_run_ok (onDisk_run benign _ _ (by simp)), replaced, ih file]
      cases later with
      | nil => rfl
      | cons second rest => rw [List.getLast?_cons_cons, List.getLast?_cons]; simp
  rw [writeTable, bind_run_ok (onDisk_run benign _ _ (by simp)), bind_run_ok (loop _ _),
    bind_run_ok (passive_run benign _ (by simp)), passive_run benign _ (by simp)]
  rfl

theorem scanTable_run {id : SSTableId} {file : F} {world : World F}
    (present : world.disk.sst.find? id = some file) :
    (scanTable format id).run (.always fate) world = (.ok (cursorOf format fate id file), .always fate, world) := by
  have turn : ∀ block, (attempt (passive (.readBlock id block))).run (.always fate) world =
      (.ok (if fate (.readBlock id block) = .failed then
        .error (Call.error (.readBlock id block)) else .ok ()), .always fate, world) := by
    intro block
    cases decided : fate (.readBlock id block) with
    | done => exact attempt_run_ok (call_run_done _ _ _ decided)
    | failed => exact attempt_run_err (call_run_failed _ _ _ decided)
    | crashed => exact absurd decided (benign.returns id block)
  rw [scanTable, bind_run_ok (getState_run _ _)]
  simp only [present]
  rw [bind_run_ok (mapEach_run world (fun block _ => turn block)), pure_run, cursorOf]
  congr 3
  funext block
  by_cases inside : block < format.blockCount file
  · by_cases failed : fate (.readBlock id block) = .failed <;> simp [inside, failed]
  · simp [inside]

theorem openInput_run {id : SSTableId} {file : F} {info : TableInfo} {world : World F}
    (present : world.disk.sst.find? id = some file) (accepted : format.create file = .ok info) :
    (openInput format id).run (.always fate) world = (.ok info, .always fate, world) := by
  have read := readTable_run format benign World.disk present
  rw [accepted] at read
  rw [openInput, bind_run_ok (attempt_run_ok read)]
  rfl

/-- A compaction whose inputs the reader accepts writes its output in full. -/
theorem compact_run {inputs : List SSTableId} {file : SSTableId → F} {info : SSTableId → TableInfo}
    {world : World F} (outputId : SSTableId) (full : Bool)
    (present : ∀ id ∈ inputs, world.disk.sst.find? id = some (file id))
    (accepted : ∀ id ∈ inputs, format.create (file id) = .ok (info id)) :
    (compact format inputs outputId full).run (.always fate) world = (.ok outputId, .always fate,
      { world with
        disk := world.disk.putTable outputId
          (format.complete (inputs.map info |>.map TableInfo.entryCount).sum
            (compactedEntries (inputs.map fun id => cursorOf format fate id (file id)) full)) }) := by
  rw [compact, bind_run_ok (mapEach_run world fun id member => openInput_run benign (present id member) (accepted id member)),
    bind_run_ok (mapEach_run world (fun id member => scanTable_run benign (present id member))),
    bind_run_ok (writeTable_run benign _ _ _ _), pure_run]

/-- The file that a compaction leaves, from its inputs' files and footers. -/
def outputFile (format : TableFormat F) (fate : Call → Fate) (file : SSTableId → F)
    (info : SSTableId → TableInfo) (task : CompactionTask) : F :=
  format.complete (task.inputs.map info |>.map TableInfo.entryCount).sum
    (compactedEntries (task.inputs.map fun id => cursorOf format fate id (file id)) task.canDropTombstone)

theorem install_run {task : CompactionTask} (world : World F) {file : F} {info : TableInfo}
    (quiet : world.engine.versionSet.Quiet)
    (live : ∀ id ∈ task.inputs, (world.engine.version.files.find? id).isSome) (fresh : task.outputId ∉ task.inputs)
    (present : world.disk.sst.find? task.outputId = some file) (accepted : format.create file = .ok info) :
    ∃ versionSet : VersionSet, versionSet.Quiet ∧
      versionSet.currentVersion.files = (task.inputs.foldl SortedMap.erase world.engine.version.files).insert
        task.outputId (tableMeta task.outputId info) ∧
      (install format task).run (.always fate) world = (.ok (), .always fate,
        { disk := { world.disk with sst := task.inputs.foldl SortedMap.erase world.disk.sst }
          engine := { world.engine with versionSet := versionSet } }) := by
  have read := readTable_run format benign World.disk present
  rw [accepted] at read
  have replaced : ∀ id ∈ task.inputs, (VersionSet.edited world.engine.version.files
      ⟨task.inputs, [tableMeta task.outputId info]⟩).find? id = none := by
    intro id member
    have different : id ≠ task.outputId := fun same => fresh (same ▸ member)
    simp [VersionSet.edited, tableMeta, different, SortedMap.foldl_erase_find?, member]
  obtain ⟨versionSet, afterQuiet, files, run⟩ :=
    applyEdit_run benign ⟨task.inputs, [tableMeta task.outputId info]⟩ quiet live replaced
  refine ⟨versionSet, afterQuiet, files, ?_⟩
  rw [install, bind_run_ok read, bind_run_ok (passive_run benign _ (by simp)), run]

/-- What one compaction task meets: inputs that are live, on disk and accepted,
and an output id that is not among them. -/
structure Ready (format : TableFormat F) (world : World F) (task : CompactionTask)
    (file : SSTableId → F) (info : SSTableId → TableInfo) : Prop where
  quiet : world.engine.versionSet.Quiet
  live : ∀ id ∈ task.inputs, (world.engine.version.files.find? id).isSome
  present : ∀ id ∈ task.inputs, world.disk.sst.find? id = some (file id)
  accepted : ∀ id ∈ task.inputs, format.create (file id) = .ok (info id)
  fresh : task.outputId ∉ task.inputs

/-- The state in which a task has written its output and not yet installed it. -/
def withOutput (world : World F) (task : CompactionTask) (file : F) : World F :=
  { world with disk := world.disk.putTable task.outputId file }

omit benign in
theorem withOutput_present (world : World F) (task : CompactionTask) (file : F) :
    (withOutput world task file).disk.sst.find? task.outputId = some file := by
  simp [withOutput, Disk.putTable]

theorem execute_run {task : CompactionTask} {world : World F} {file : SSTableId → F}
    {info : SSTableId → TableInfo} (ready : Ready format world task file info) :
    (execute format task).run (.always fate) world = (.ok task.outputId, .always fate,
      withOutput world task (outputFile format fate file info task)) :=
  compact_run benign task.outputId task.canDropTombstone ready.present ready.accepted

/-- The state after an installed task: the inputs' files are gone. -/
def compactedWorld (world : World F) (task : CompactionTask) (file : F) (versionSet : VersionSet) :
    World F where
  disk := { world.disk with
    sst := task.inputs.foldl SortedMap.erase (world.disk.sst.insert task.outputId file) }
  engine := { world.engine with versionSet := versionSet }

theorem runTask_run {task : CompactionTask} {world : World F} {file : SSTableId → F}
    {info : SSTableId → TableInfo} {outputInfo : TableInfo} (ready : Ready format world task file info)
    (accepted : format.create (outputFile format fate file info task) = .ok outputInfo) :
    ∃ versionSet : VersionSet, versionSet.Quiet ∧
      versionSet.currentVersion.files = (task.inputs.foldl SortedMap.erase world.engine.version.files).insert
        task.outputId (tableMeta task.outputId outputInfo) ∧
      (runTask format task).run (.always fate) world = (.ok (some task.outputId), .always fate,
        compactedWorld world task (outputFile format fate file info task) versionSet) := by
  obtain ⟨versionSet, quiet, files, installed⟩ := install_run benign
    (withOutput world task (outputFile format fate file info task)) ready.quiet ready.live ready.fresh
    (withOutput_present world task _) accepted
  refine ⟨versionSet, quiet, files, ?_⟩
  rw [runTask, bind_run_ok (execute_run benign ready), bind_run_ok (attempt_run_ok installed)]
  rfl

/-- An output that the reader rejects stays on disk and is not installed. -/
theorem runTask_run_rejected {task : CompactionTask} {world : World F} {file : SSTableId → F}
    {info : SSTableId → TableInfo} {error : Error} (ready : Ready format world task file info)
    (rejected : format.create (outputFile format fate file info task) = .error error) :
    (runTask format task).run (.always fate) world = (if error.isStaleVersion then .ok none else .err error, .always fate,
      withOutput world task (outputFile format fate file info task)) := by
  have read := readTable_run format benign World.disk
    (withOutput_present world task (outputFile format fate file info task))
  rw [rejected] at read
  have failed : (install format task).run (.always fate)
      (withOutput world task (outputFile format fate file info task)) =
      (.err error, .always fate, withOutput world task (outputFile format fate file info task)) := by
    rw [install, bind_run_err read]
  rw [runTask, bind_run_ok (execute_run benign ready), bind_run_ok (attempt_run_err failed)]
  simp only [ite_run]
  split <;> rfl

/-- The table file that a flush writes. -/
def flushedFile (format : TableFormat F) (world : World F) : F :=
  format.complete world.engine.activeMemtable.count world.engine.activeMemtable.entries.bindings

/-- The state after a flush, up to the compaction check. -/
def flushedWorld (format : TableFormat F) (world : World F) (versionSet : VersionSet) : World F where
  disk := ((world.disk.putTable world.engine.nextSstSeq (flushedFile format world)).openWal
    world.engine.nextWalSeq).dropWal (world.engine.nextWalSeq - 1)
  engine :=
    { world.engine with
      nextSstSeq := world.engine.nextSstSeq + 1
      nextWalSeq := world.engine.nextWalSeq + 1
      versionSet := versionSet
      walWriter := world.engine.nextWalSeq
      activeMemtable := .new world.engine.memtableSize }

/-- A flush of a memtable that holds something, up to the compaction check. -/
theorem flushMemtable_run {world : World F} {info : TableInfo} (quiet : world.engine.versionSet.Quiet)
    (accepted : format.create (flushedFile format world) = .ok info) :
    ∃ versionSet : VersionSet, versionSet.Quiet ∧
      versionSet.currentVersion.files = world.engine.version.files.insert world.engine.nextSstSeq
        (tableMeta world.engine.nextSstSeq info) ∧
      (flushMemtable format).run (.always fate) world =
        (.ok (), .always fate, flushedWorld format world versionSet) := by
  let memtable := world.engine.activeMemtable
  let file := flushedFile format world
  let minted : World F :=
    { world with engine := { world.engine with nextSstSeq := world.engine.nextSstSeq + 1 } }
  let written : World F := { minted with disk := minted.disk.putTable world.engine.nextSstSeq file }
  have wrote : (writeTable format world.engine.nextSstSeq memtable.count memtable.entries.bindings).run
      (.always fate) minted = (.ok (), .always fate, written) := writeTable_run benign _ _ _ _
  have read := readTable_run format benign World.disk
    (show written.disk.sst.find? world.engine.nextSstSeq = some file by simp [written, Disk.putTable])
  rw [accepted] at read
  let rotated : World F :=
    { disk := written.disk.openWal world.engine.nextWalSeq
      engine := { minted.engine with nextWalSeq := world.engine.nextWalSeq + 1 } }
  obtain ⟨versionSet, afterQuiet, files, installed⟩ := installFlushedSst_run benign rotated
    (tableMeta world.engine.nextSstSeq info) quiet
  refine ⟨versionSet, afterQuiet, files, ?_⟩
  rw [flushMemtable, bind_run_ok (getState_run _ _), bind_run_ok (mintSstId_run _ _), bind_run_ok wrote,
    bind_run_ok read, bind_run_ok (mintWalId_run _ _), bind_run_ok (onDisk_run benign _ _ (by simp)),
    bind_run_ok installed, bind_run_ok (onEngine_run _ _ _), onDisk_run benign _ _ (by simp)]
  rfl

omit benign in
/-- After the flush comes a compaction whose failure is not passed on. -/
theorem flush_run {world after : World F} (filled : world.engine.activeMemtable.count ≠ 0)
    (flushed : (flushMemtable format).run (.always fate) world = (.ok (), .always fate, after)) :
    (flush format).run (.always fate) world =
      (attempt (doCompactWork format) >>= fun _ => pure ()).run (.always fate) after := by
  rw [flush, bind_run_ok (getState_run _ _), ite_run]
  simp only [filled, ↓reduceIte]
  rw [bind_run_ok flushed]

/-- The write path up to the flush check. -/
def written (world : World F) (key : Key) (value : Option Bytes) (timestamp : Nat) : World F where
  disk := world.disk.appendWal world.engine.walWriter
    ⟨if value.isSome then .putRow else .deleteRow, timestamp, world.engine.lsn, key, value.getD []⟩
  engine :=
    { world.engine with
      lsn := world.engine.lsn + 1
      activeMemtable := storeWrite world.engine.activeMemtable key value world.engine.lsn }

variable (format) in
theorem write_run (world : World F) (key : Key) (value : Option Bytes) (timestamp : Nat) :
    (write format key value timestamp).run (.always fate) world =
      if (written world key value timestamp).engine.activeMemtable.shouldFlush then
        (flush format).run (.always fate) (written world key value timestamp)
      else (.ok (), .always fate, written world key value timestamp) := by
  rw [write, bind_run_ok (bumpLsnSequence_run _ _), bind_run_ok (getState_run _ _),
    bind_run_ok (onDisk_run benign _ _ (by simp)), bind_run_ok (passive_run benign _ (by simp)),
    bind_run_ok (onEngine_run _ _ _), bind_run_ok (getState_run _ _), ite_run]
  rfl

omit benign in
theorem lookupInternal_cons {disk : Disk F} {key : Key} {id : SSTableId} {older : List SSTableId}
    {file : F} {info : TableInfo} {found : Option InternalValue} (present : disk.sst.find? id = some file)
    (accepted : format.create file = .ok info) (hit : format.get file key = .ok found) :
    lookupInternal format disk key (id :: older) =
      found.elim (lookupInternal format disk key older) (fun value => .ok (some value)) := by
  simp only [lookupInternal, present, accepted, hit]
  cases found <;> rfl

omit benign in
/-- The engine that `open` makes of an empty directory. -/
theorem open_empty {F : Type} (format : TableFormat F) (config : Config) :
    (Engine.open format config).run .calm .empty =
      (.ok (bootstrap config [] [] []), .calm, ⟨.empty, SortedMap.empty.insert 1 []⟩) := rfl

end Engine

end Enigma
