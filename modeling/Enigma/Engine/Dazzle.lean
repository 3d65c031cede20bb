import Enigma.Foundation.FaultLogic
import Enigma.Storage.Memtable
import Enigma.Wal.Segment
import Enigma.Engine.VersionSet
import Enigma.Engine.TableFormat
import Enigma.Compaction.Policy

/-! The engine: its memory, the data directory, and its operations in the order
of their I/O calls. One thread drives it, so no reader pins a version. A table
is read through its file every time; the table cache only saves that I/O. -/

namespace Enigma

/-- Calls that the environment decides. Opening covers creation as well; the two
sync calls are told apart by nothing the engine does. -/
inductive Call where
  | open
  | append
  | fileSize
  | read
  /-- The iterator's read of one block of one table. -/
  | readBlock (id : SSTableId) (block : Nat)
  | sync
  | unlink
  /-- `fs::remove`, which throws where the calls above return an error. -/
  | fsRemove
  /-- `VersionSet::apply` for a compaction, which another thread may have made stale. -/
  | applyEdit
  deriving DecidableEq, Repr

namespace Call

/-- The error of a failed call. The text is that of the operating system. -/
def error : Call → Error
  | .open => ⟨.fileDescriptorErr, "Input/output error"⟩
  | .append => ⟨.writeErr, "Input/output error"⟩
  | .fileSize => ⟨.fstatErr, "Input/output error"⟩
  | .read | .readBlock _ _ => ⟨.readErr, "Input/output error"⟩
  | .sync => ⟨.fsyncErr, "Input/output error"⟩
  | .unlink => ⟨.fileDescriptorErr, "Input/output error"⟩
  | .fsRemove => ⟨.unexpectedErr, "filesystem error: cannot remove: Input/output error"⟩
  | .applyEdit => VersionSet.staleVersion

end Call

def noSuchFile : Error := ⟨.fileDescriptorErr, "No such file or directory"⟩

/-- The data directory: table files and log segments under the numbers in their
names. A segment is taken as the records that were appended to it. -/
structure Disk (F : Type) where
  sst : SortedMap SSTableId F
  wal : SortedMap Nat (List WalRecord)

namespace Disk

variable {F : Type}

def empty : Disk F := ⟨.empty, .empty⟩

def putTable (id : SSTableId) (file : F) (disk : Disk F) : Disk F := { disk with sst := disk.sst.insert id file }

def dropTable (id : SSTableId) (disk : Disk F) : Disk F := { disk with sst := disk.sst.erase id }

/-- Open a segment for appending, which creates it when it is not there. -/
def openWal (seq : Nat) (disk : Disk F) : Disk F :=
  match disk.wal.find? seq with
  | some _ => disk
  | none => { disk with wal := disk.wal.insert seq [] }

/-- Append through an open handle. When the segment is unlinked already, the
record goes to a file that no directory names. -/
def appendWal (seq : Nat) (record : WalRecord) (disk : Disk F) : Disk F :=
  match disk.wal.find? seq with
  | some records => { disk with wal := disk.wal.insert seq (records ++ [record]) }
  | none => disk

def dropWal (seq : Nat) (disk : Disk F) : Disk F := { disk with wal := disk.wal.erase seq }

@[simp] theorem putTable_sst (id : SSTableId) (file : F) (disk : Disk F) :
    (disk.putTable id file).sst = disk.sst.insert id file := rfl

@[simp] theorem openWal_sst (seq : Nat) (disk : Disk F) : (disk.openWal seq).sst = disk.sst := by
  unfold openWal
  split <;> rfl

theorem openWal_find? (seq probe : Nat) (disk : Disk F) : (disk.openWal seq).wal.find? probe =
    if probe = seq then some ((disk.wal.find? seq).getD []) else disk.wal.find? probe := by
  unfold openWal
  cases found : disk.wal.find? seq with
  | some records => by_cases same : probe = seq <;> simp [same, found]
  | none => by_cases same : probe = seq <;> simp [same]

@[simp] theorem appendWal_sst (seq : Nat) (record : WalRecord) (disk : Disk F) :
    (disk.appendWal seq record).sst = disk.sst := by
  unfold appendWal
  split <;> rfl

@[simp] theorem dropWal_sst (seq : Nat) (disk : Disk F) : (disk.dropWal seq).sst = disk.sst := rfl

end Disk

structure Dazzle where
  /-- The segment that the open writer appends to. -/
  walWriter : Nat
  memtableSize : Nat
  activeMemtable : Memtable
  versionSet : VersionSet
  lsn : Nat
  nextWalSeq : Nat
  nextSstSeq : Nat
  policy : CompactionPolicy

namespace Dazzle

def version (engine : Dazzle) : Version := engine.versionSet.currentVersion

end Dazzle

structure World (F : Type) where
  disk : Disk F
  engine : Dazzle

structure CompactionTask where
  inputs : List SSTableId
  outputId : SSTableId
  canDropTombstone : Bool

namespace Engine

open Prog

section

variable {F α : Type}

/-- A call that leaves the directory and the engine as they are. -/
def passive {σ : Type} (kind : Call) : Prog Call Error σ Unit := call kind kind.error fun state => state

def onDisk (kind : Call) (effect : Disk F → Disk F) : Prog Call Error (World F) Unit :=
  call kind kind.error fun world => { world with disk := effect world.disk }

def onEngine (change : Dazzle → Dazzle) : Prog Call Error (World F) Unit :=
  update fun world => { world with engine := change world.engine }

def bumpLsnSequence : Prog Call Error (World F) Nat := do
  let world ← getState
  onEngine fun engine => { engine with lsn := engine.lsn + 1 }
  return world.engine.lsn

def mintSstId : Prog Call Error (World F) SSTableId := do
  let world ← getState
  onEngine fun engine => { engine with nextSstSeq := engine.nextSstSeq + 1 }
  return world.engine.nextSstSeq

def mintWalId : Prog Call Error (World F) Nat := do
  let world ← getState
  onEngine fun engine => { engine with nextWalSeq := engine.nextWalSeq + 1 }
  return world.engine.nextWalSeq

/-- Unlink the files, whatever becomes of each. -/
def reclaim (ids : List SSTableId) : Prog Call Error (World F) Unit :=
  forEach ids fun id => do
    let _ ← attempt (onDisk .unlink (Disk.dropTable id))
    return ()

/-- Publish an edit and reclaim what no version names any more. -/
def applyEdit (edit : VersionEdit) : Prog Call Error (World F) Unit := do
  let world ← getState
  match world.engine.versionSet.apply (fun _ => 0) edit with
  | .error error => fail error
  | .ok (ids, versionSet) => do
    onEngine fun engine => { engine with versionSet := versionSet }
    reclaim ids

def installFlushedSst (table : SSTableMeta) : Prog Call Error (World F) Unit := applyEdit ⟨[], [table]⟩

end

variable {F : Type} (format : TableFormat F)

def tableMeta (id : SSTableId) (info : TableInfo) : SSTableMeta :=
  ⟨id, info.sizeBytes, info.entryCount, info.highestSequence⟩

/-- `SSTableReader::create` on the file of an id: open it, take its size, read
the footer, read index and filter. -/
def readTable {σ : Type} (disk : σ → Disk F) (id : SSTableId) : Prog Call Error σ TableInfo := do
  passive .open
  let state ← getState
  match (disk state).sst.find? id with
  | none => fail noSuchFile
  | some file => do
    passive .fileSize
    passive .read
    passive .read
    match format.create file with
    | .error error => fail error
    | .ok info => return info

/-- `SSTableWriter::create`, the adds, and `finish`. Ids are fresh, so opening
finds no earlier file under the name. -/
def writeTable (id : SSTableId) (estimatedKeys : Nat) (entries : List Entry) :
    Prog Call Error (World F) Unit := do
  onDisk .open (Disk.putTable id (format.opened estimatedKeys entries))
  forEach (format.appended estimatedKeys entries) fun file => onDisk .append (Disk.putTable id file)
  passive .sync
  passive .sync

/-- An iterator over a table, with the block reads that fail for it. -/
def scanTable (id : SSTableId) : Prog Call Error (World F) Cursor := do
  let world ← getState
  match world.disk.sst.find? id with
  | none => fail noSuchFile
  | some file => do
    let answers ← mapEach (List.range (format.blockCount file)) fun block =>
      attempt (passive (.readBlock id block))
    return format.scan file fun block =>
      match answers[block]? with
      | some (.error error) => some error
      | _ => none

def missingInput : Error :=
  ⟨.unexpectedErr, "SST file went missing from snapshot before compaction could read it"⟩

/-- What a compaction hands to the writer: what the merge delivers until it is
no longer valid, without tombstones in a full compaction. -/
def compactedEntries (cursors : List Cursor) (isFullCompaction : Bool) : List Entry :=
  (MergeIterator.scan cursors).1.filter fun entry => !(entry.2.isTombstone && isFullCompaction)

/-- What compaction learns when it opens an input. -/
def openInput (id : SSTableId) : Prog Call Error (World F) TableInfo := do
  match ← attempt (readTable format World.disk id) with
  | .error _ => fail missingInput
  | .ok info => return info

/-- `Compactor::compact`. The code opens the output before it reads the input
blocks; reads leave no trace, so here they all come first. -/
def compact (inputs : List SSTableId) (nextSstSeq : SSTableId) (isFullCompaction : Bool) :
    Prog Call Error (World F) SSTableId := do
  let infos ← mapEach inputs (openInput format)
  let possibleKeys := (infos.map TableInfo.entryCount).sum
  let cursors ← mapEach inputs (scanTable format)
  writeTable format nextSstSeq possibleKeys (compactedEntries cursors isFullCompaction)
  return nextSstSeq

def execute (task : CompactionTask) : Prog Call Error (World F) SSTableId :=
  compact format task.inputs task.outputId task.canDropTombstone

def install (task : CompactionTask) : Prog Call Error (World F) Unit := do
  let info ← readTable format World.disk task.outputId
  passive .applyEdit
  applyEdit ⟨task.inputs, [tableMeta task.outputId info]⟩

def runTask (task : CompactionTask) : Prog Call Error (World F) (Option SSTableId) := do
  let _ ← execute format task
  match ← attempt (install format task) with
  | .error error => if error.isStaleVersion then return none else fail error
  | .ok _ => return some task.outputId

def doCompactWork : Prog Call Error (World F) (Option SSTableId) := do
  let world ← getState
  match world.engine.policy.pick world.engine.version.sstMetaToVector with
  | none => return none
  | some candidate => do
    let outputId ← mintSstId
    runTask format ⟨candidate.inputs, outputId, candidate.canDropTombstone⟩

def compactNow : Prog Call Error (World F) (Option SSTableId) := do
  let world ← getState
  let metas := world.engine.version.sstMetaToVector
  if metas = [] then return none
  else do
    let outputId ← mintSstId
    runTask format ⟨(metas.map SSTableMeta.id).insertionSort (· ≤ ·), outputId, true⟩

/-- The part of `flush` before it looks for compaction work, on a memtable that
holds something. -/
def flushMemtable : Prog Call Error (World F) Unit := do
  let world ← getState
  let memtable := world.engine.activeMemtable
  let newSequence ← mintSstId
  writeTable format newSequence memtable.count memtable.entries.bindings
  let info ← readTable format World.disk newSequence
  let newWalSeq ← mintWalId
  onDisk .open (Disk.openWal newWalSeq)
  installFlushedSst (tableMeta newSequence info)
  onEngine fun engine =>
    { engine with walWriter := newWalSeq, activeMemtable := .new engine.memtableSize }
  -- the segment to delete comes from the counter, not from the writer
  onDisk .fsRemove (Disk.dropWal (newWalSeq - 1))

def flush : Prog Call Error (World F) Unit := do
  let world ← getState
  if world.engine.activeMemtable.count = 0 then return ()
  else do
    flushMemtable format
    let _ ← attempt (doCompactWork format)
    return ()

def storeWrite (memtable : Memtable) (key : Key) (value : Option Bytes) (sequence : Nat) : Memtable :=
  match value with
  | some bytes => memtable.put key bytes sequence
  | none => memtable.remove key sequence

theorem storeWrite_eq (memtable : Memtable) (key : Key) (value : Option Bytes) (sequence : Nat) :
    storeWrite memtable key value sequence = memtable.store key ⟨value.getD [], value.isNone, sequence⟩ := by
  cases value <;> rfl

/-- The write path that `put` and `remove` share: no value means removal. -/
def write (key : Key) (value : Option Bytes) (timestamp : Nat) : Prog Call Error (World F) Unit := do
  let sequence ← bumpLsnSequence
  let opType := if value.isSome then WalOpType.putRow else .deleteRow
  let world ← getState
  onDisk .append (Disk.appendWal world.engine.walWriter ⟨opType, timestamp, sequence, key, value.getD []⟩)
  passive .sync
  onEngine fun engine => { engine with activeMemtable := storeWrite engine.activeMemtable key value sequence }
  let world ← getState
  if world.engine.activeMemtable.shouldFlush then flush format else return ()

def put (key : Key) (value : Bytes) (timestamp : Nat) : Prog Call Error (World F) Unit :=
  if value = [] then fail ⟨.badConfig, "value is empty"⟩ else write format key (some value) timestamp

def remove (key : Key) (timestamp : Nat) : Prog Call Error (World F) Unit := write format key none timestamp

def setCompactionPolicy (policy : CompactionPolicy) : Prog Call Error (World F) Unit :=
  onEngine fun engine => { engine with policy := policy }

/-- One replayed record goes to the memtable as the write that logged it did. -/
def replayRecord (memtable : Memtable) (record : WalRecord) : Memtable :=
  if record.opType = .deleteRow then memtable.remove record.key record.sequence
  else memtable.put record.key record.value record.sequence

/-- The replay loop over one segment, from the records that its bytes hold and the
reads that show the end. A record takes two reads; whatever read fails, the loop
just ends. -/
def replaySegment (lastReads : Nat) : List WalRecord → Nat → Prog Call Error (World F) Nat
  | [], highest => do
    let _ ← attempt (forEach (List.replicate lastReads .read) passive)
    return highest
  | record :: later, highest => do
    match ← attempt (do
        passive .read
        passive .read) with
    | .error _ => return highest
    | .ok _ => do
      onEngine fun engine => { engine with activeMemtable := replayRecord engine.activeMemtable record }
      replaySegment lastReads later (max highest record.sequence)

def replaySegments : List (Nat × List WalRecord) → Nat → Prog Call Error (World F) Nat
  | [], highest => return highest
  | (_, appended) :: later, highest => do
    passive .open
    let highest ← replaySegment (readBack appended).lastReads (readBack appended).records highest
    replaySegments later highest

def flushRecovered : Prog Call Error (World F) Unit := do
  let world ← getState
  if 0 < world.engine.activeMemtable.approximateSize then flush format else return ()

def recover : Prog Call Error (World F) Nat := do
  let world ← getState
  let oldWalFiles := world.disk.wal.bindings.filter fun segment => segment.1 < world.engine.nextWalSeq
  if oldWalFiles = [] then return 0
  else do
    let highestWalLsnSequence ← replaySegments oldWalFiles 0
    flushRecovered format
    forEach oldWalFiles fun segment => onDisk .fsRemove (Disk.dropWal segment.1)
    onEngine fun engine => { engine with lsn := max engine.lsn highestWalLsnSequence + 1 }
    return highestWalLsnSequence

structure Config where
  memtableSize : Nat
  policy : CompactionPolicy

def highestOf (numbers : List Nat) : Nat := numbers.foldl max 0

theorem le_highestOf {numbers : List Nat} {number : Nat} (member : number ∈ numbers) : number ≤ highestOf numbers := by
  have general : ∀ (numbers : List Nat) (start : Nat), start ≤ numbers.foldl max start ∧
      ∀ number ∈ numbers, number ≤ numbers.foldl max start := by
    intro numbers
    induction numbers with
    | nil => exact fun start => ⟨le_rfl, by simp⟩
    | cons first rest ih =>
      intro start
      obtain ⟨above, each⟩ := ih (max start first)
      refine ⟨(le_max_left _ _).trans above, ?_⟩
      intro number member
      rcases List.mem_cons.mp member with here | later
      · rw [here]
        exact (le_max_right _ _).trans above
      · exact each number later
  exact (general numbers 0).2 number member

/-- The engine that `open` builds from the tables it found, before recovery. -/
def bootstrap (config : Config) (wal sst : List Nat) (metas : List SSTableMeta) : Dazzle where
  walWriter := highestOf wal + 1
  memtableSize := config.memtableSize
  activeMemtable := .new config.memtableSize
  versionSet := .new (SortedMap.empty.insertMany (metas.map fun table => (table.id, table)))
  lsn := highestOf (metas.map SSTableMeta.maxSequence) + 1
  nextWalSeq := highestOf wal + 1
  nextSstSeq := highestOf sst + 1
  policy := config.policy

/-- `Dazzle::open` on an existing data directory. -/
def «open» (config : Config) : Prog Call Error (Disk F) Dazzle := do
  let disk ← getState
  let metas ← mapEach disk.sst.keys fun id => do
    let info ← readTable format (fun disk => disk) id
    return tableMeta id info
  let segments := disk.wal.keys
  call .open (Call.error .open) (Disk.openWal (highestOf segments + 1))
  let recovered ← nested (fun disk => World.mk disk (bootstrap config segments disk.sst.keys metas)) World.disk
    (recover format)
  return recovered.2.engine

/-- `Version::lookup_internal`: the tables from the highest id down. -/
def lookupInternal (disk : Disk F) (key : Key) : List SSTableId → Except Error (Option InternalValue)
  | [] => .ok none
  | id :: older =>
    match disk.sst.find? id with
    | none => .error noSuchFile
    | some file =>
      match format.create file with
      | .error error => .error error
      | .ok _ =>
        match format.get file key with
        | .error error => .error error
        | .ok (some value) => .ok (some value)
        | .ok none => lookupInternal disk key older

def getInternal (world : World F) (key : Key) : Except Error (Option InternalValue) :=
  match world.engine.activeMemtable.get key with
  | some value => .ok (some value)
  | none => lookupInternal format world.disk key world.engine.version.files.keys.reverse

def get (world : World F) (key : Key) : Except Error (Option Bytes) :=
  (getInternal format world key).map fun found => found.bind InternalValue.visible

end Engine

end Enigma
