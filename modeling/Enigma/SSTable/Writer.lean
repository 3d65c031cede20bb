import Enigma.Codec.Encoding
import Enigma.Codec.Checksum
import Enigma.Codec.BloomFilter

/-! The table writer. Entries gather in a buffer that is appended to the file as a
block when the next entry would take it over the block size; the index, the filter
and the footer follow. `blocksOf` says which entries share a block. -/

namespace Enigma

def footerSize : Nat := 64

def magicBytesOffset : Nat := 50

def footerChecksumOffset : Nat := 46

def maxPagingSizeBytes : Nat := 4096

def sstableFormatVersion : Nat := 4

/-- The letters `ENIGSSTB`. -/
def magic : Bytes := [0x45, 0x4E, 0x49, 0x47, 0x53, 0x53, 0x54, 0x42]

structure IndexEntry where
  firstKey : Key
  blockOffset : Nat
  blockSize : Nat
  deriving DecidableEq

def requiredSize (entry : Entry) : Nat := 4 + entry.1.length + 4 + entry.2.data.length + 1 + 8

def encodeEntry (entry : Entry) : Bytes :=
  encodeUint32 entry.1.length ++ entry.1 ++ encodeUint32 entry.2.data.length ++ entry.2.data ++
    encodeUint8 (if entry.2.isTombstone then 1 else 0) ++ encodeUint64 entry.2.sequence

def encodeIndexEntry (entry : IndexEntry) : Bytes :=
  encodeUint32 entry.firstKey.length ++ entry.firstKey ++ encodeUint64 entry.blockOffset ++ encodeUint32 entry.blockSize

/-- The footer's fields, in front of the checksum over them. -/
def encodeFooterFields (footer : SSTFooter) : Bytes :=
  encodeUint64 footer.indexBlockOffset ++ encodeUint32 footer.indexBlockSize ++ encodeUint64 footer.filterBlockOffset ++
    encodeUint32 footer.filterBlockSize ++ encodeUint32 footer.entryCount ++ encodeUint16 footer.formatVersion ++
    encodeUint64 footer.highestSequence ++ encodeUint64 footer.sizeBytes

def encodeFooter (footer : SSTFooter) : Bytes :=
  encodeFooterFields footer ++ encodeUint32 (computeCrc32 (encodeFooterFields footer)).toNat ++ magic ++
    encodeUint32 0 ++ encodeUint16 0

/-- The writer, with what it has appended to its file so far, call by call. -/
structure SSTableWriter where
  appended : List Bytes
  buffer : Bytes
  currentBlockFirstKey : Key
  currentFileOffset : Nat
  currentBlockStartOffset : Nat
  bloomFilter : BloomFilter
  highestSequence : Nat
  indexEntries : List IndexEntry
  entryCount : Nat

namespace SSTableWriter

def create (sizing : BloomFilter.Sizing) (estimatedKeys : Nat) : SSTableWriter :=
  ⟨[], [], [], 0, 0, .new sizing estimatedKeys, 0, [], 0⟩

def flushBlock (writer : SSTableWriter) : SSTableWriter :=
  { writer with
    appended := writer.appended ++ [writer.buffer]
    indexEntries := writer.indexEntries ++
      [⟨writer.currentBlockFirstKey, writer.currentBlockStartOffset, writer.buffer.length⟩]
    currentFileOffset := writer.currentFileOffset + writer.buffer.length
    buffer := [] }

/-- The buffer is flushed when the entry would not fit, even an empty one. -/
def makeRoom (writer : SSTableWriter) (entry : Entry) : SSTableWriter :=
  if maxPagingSizeBytes < writer.buffer.length + requiredSize entry then writer.flushBlock else writer

def startBlock (writer : SSTableWriter) (entry : Entry) : SSTableWriter :=
  if writer.buffer = [] then
    { writer with currentBlockFirstKey := entry.1, currentBlockStartOffset := writer.currentFileOffset }
  else writer

def add (writer : SSTableWriter) (entry : Entry) : SSTableWriter :=
  let writer := (writer.makeRoom entry).startBlock entry
  { writer with
    buffer := writer.buffer ++ encodeEntry entry
    bloomFilter := writer.bloomFilter.add entry.1
    highestSequence := max writer.highestSequence entry.2.sequence
    entryCount := writer.entryCount + 1 }

def addAll (writer : SSTableWriter) (entries : List Entry) : SSTableWriter := entries.foldl add writer

/-- The first step of `finish`. -/
def flushRest (writer : SSTableWriter) : SSTableWriter := if writer.buffer = [] then writer else writer.flushBlock

def indexBlock (writer : SSTableWriter) : Bytes := writer.indexEntries.flatMap encodeIndexEntry

def filterBlock (writer : SSTableWriter) : Bytes :=
  encodeUint8 writer.bloomFilter.numHashes ++ writer.bloomFilter.bitArray

def footer (writer : SSTableWriter) : SSTFooter where
  indexBlockOffset := writer.currentFileOffset
  indexBlockSize := writer.indexBlock.length
  filterBlockOffset := writer.currentFileOffset + writer.indexBlock.length
  filterBlockSize := writer.filterBlock.length
  entryCount := writer.entryCount
  formatVersion := sstableFormatVersion
  highestSequence := writer.highestSequence
  sizeBytes := writer.currentFileOffset + writer.indexBlock.length + writer.filterBlock.length + footerSize

/-- What `finish` appends once the last block is out. -/
def trailer (writer : SSTableWriter) : List Bytes := [writer.indexBlock, writer.filterBlock, encodeFooter writer.footer]

def finish (writer : SSTableWriter) : SSTableWriter :=
  { writer.flushRest with appended := writer.flushRest.appended ++ writer.flushRest.trailer }

end SSTableWriter

/-- The writer after its last block, with all the entries added. -/
def loadedWriter (sizing : BloomFilter.Sizing) (estimatedKeys : Nat) (entries : List Entry) : SSTableWriter :=
  ((SSTableWriter.create sizing estimatedKeys).addAll entries).flushRest

/-- The appends that write a table. -/
def tableAppends (sizing : BloomFilter.Sizing) (estimatedKeys : Nat) (entries : List Entry) : List Bytes :=
  ((SSTableWriter.create sizing estimatedKeys).addAll entries).finish.appended

def tableFile (sizing : BloomFilter.Sizing) (estimatedKeys : Nat) (entries : List Entry) : Bytes :=
  (tableAppends sizing estimatedKeys entries).flatten

/-- The entries of a block one after the other. -/
def blockBytes (block : List Entry) : Bytes := block.flatMap encodeEntry

def blockSize (block : List Entry) : Nat := (block.map requiredSize).sum

/-- The blocks that a writer with some entries in its buffer makes of more. -/
def splitBlocks : List Entry → List Entry → List (List Entry)
  | current, [] => if current = [] then [] else [current]
  | current, entry :: later =>
    if maxPagingSizeBytes < blockSize current + requiredSize entry then current :: splitBlocks [entry] later
    else splitBlocks (current ++ [entry]) later

def blocksOf (entries : List Entry) : List (List Entry) := splitBlocks [] entries

def dataSize (blocks : List (List Entry)) : Nat := (blocks.map blockSize).sum

def leadKey (block : List Entry) : Key := (block.head?.map Prod.fst).getD []

/-- The index over blocks that stand one after the other from an offset on. -/
def indexOf : Nat → List (List Entry) → List IndexEntry
  | _, [] => []
  | offset, block :: later => ⟨leadKey block, offset, blockSize block⟩ :: indexOf (offset + blockSize block) later

section

@[simp] theorem length_encodeEntry (entry : Entry) : (encodeEntry entry).length = requiredSize entry := by
  simp [encodeEntry, requiredSize, Nat.add_assoc]

theorem length_encodeIndexEntry (entry : IndexEntry) : (encodeIndexEntry entry).length = 16 + entry.firstKey.length := by
  simp only [encodeIndexEntry, List.length_append, ByteBuffer.length_encode]
  omega

@[simp] theorem length_encodeFooterFields (footer : SSTFooter) : (encodeFooterFields footer).length = 46 := by
  simp [encodeFooterFields]

@[simp] theorem length_encodeFooter (footer : SSTFooter) : (encodeFooter footer).length = footerSize := by
  simp [encodeFooter, footerSize, magic]

@[simp] theorem length_blockBytes (block : List Entry) : (blockBytes block).length = blockSize block := by
  simp [blockBytes, blockSize, List.length_flatMap]

theorem length_dataBytes (blocks : List (List Entry)) : (blocks.map blockBytes).flatten.length = dataSize blocks := by
  simp [dataSize, List.length_flatten, Function.comp_def]

theorem blockSize_cons (entry : Entry) (later : List Entry) :
    blockSize (entry :: later) = requiredSize entry + blockSize later := by
  simp [blockSize]

theorem dataSize_cons (block : List Entry) (later : List (List Entry)) :
    dataSize (block :: later) = blockSize block + dataSize later := by
  simp [dataSize]

theorem requiredSize_pos (entry : Entry) : 0 < requiredSize entry := by
  unfold requiredSize
  omega

theorem blockSize_eq_zero_iff {block : List Entry} : blockSize block = 0 ↔ block = [] := by
  cases block with
  | nil => simp [blockSize]
  | cons entry later =>
    have positive := requiredSize_pos entry
    simp only [blockSize, List.map_cons, List.sum_cons, reduceCtorEq, iff_false]
    omega

theorem blockBytes_eq_nil_iff {block : List Entry} : blockBytes block = [] ↔ block = [] := by
  rw [← List.length_eq_zero_iff, length_blockBytes, blockSize_eq_zero_iff]

theorem splitBlocks_flatten (current entries : List Entry) : (splitBlocks current entries).flatten = current ++ entries := by
  induction entries generalizing current with
  | nil => by_cases empty : current = [] <;> simp [splitBlocks, empty]
  | cons entry later ih =>
    rw [splitBlocks]
    split
    · simp [ih]
    · simp [ih]

theorem blocksOf_flatten (entries : List Entry) : (blocksOf entries).flatten = entries := splitBlocks_flatten [] entries

/-- Only a buffer that is still empty is flushed empty. -/
theorem splitBlocks_ne_nil {current entries : List Entry} (filled : current ≠ []) :
    ∀ block ∈ splitBlocks current entries, block ≠ [] := by
  induction entries generalizing current with
  | nil =>
    intro block member
    simp only [splitBlocks, filled, ↓reduceIte, List.mem_singleton] at member
    exact member ▸ filled
  | cons entry later ih =>
    intro block member
    rw [splitBlocks] at member
    split at member
    · rcases List.mem_cons.mp member with same | rest
      · exact same ▸ filled
      · exact ih (by simp) block rest
    · exact ih (by simp) block member

theorem blocksOf_cons (entry : Entry) (later : List Entry) : blocksOf (entry :: later) =
    if maxPagingSizeBytes < requiredSize entry then [] :: splitBlocks [entry] later else splitBlocks [entry] later := by
  simp [blocksOf, splitBlocks, blockSize]

theorem indexOf_append (offset : Nat) (front back : List (List Entry)) :
    indexOf offset (front ++ back) = indexOf offset front ++ indexOf (offset + dataSize front) back := by
  induction front generalizing offset with
  | nil => simp [indexOf, dataSize]
  | cons block later ih => simp [indexOf, ih, dataSize, Nat.add_assoc]

end

/-- A writer that has flushed some blocks and gathers another. -/
structure Gathering (writer : SSTableWriter) (done : List (List Entry)) (current : List Entry) : Prop where
  appended : writer.appended = done.map blockBytes
  buffer : writer.buffer = blockBytes current
  firstKey : writer.currentBlockFirstKey = leadKey current
  start : writer.currentBlockStartOffset = writer.currentFileOffset
  offset : writer.currentFileOffset = dataSize done
  index : writer.indexEntries = indexOf 0 done

/-- A writer whose buffer is empty, after some blocks. -/
structure Flushed (writer : SSTableWriter) (blocks : List (List Entry)) : Prop where
  appended : writer.appended = blocks.map blockBytes
  buffer : writer.buffer = []
  offset : writer.currentFileOffset = dataSize blocks
  index : writer.indexEntries = indexOf 0 blocks

section

variable {writer : SSTableWriter} {done : List (List Entry)} {current : List Entry}

theorem gathering_create (sizing : BloomFilter.Sizing) (estimatedKeys : Nat) :
    Gathering (.create sizing estimatedKeys) [] [] where
  appended := rfl
  buffer := rfl
  firstKey := rfl
  start := rfl
  offset := rfl
  index := rfl

theorem Gathering.flushBlock (gathering : Gathering writer done current) :
    Flushed writer.flushBlock (done ++ [current]) where
  appended := by simp [SSTableWriter.flushBlock, gathering.appended, gathering.buffer]
  buffer := rfl
  offset := by simp [SSTableWriter.flushBlock, gathering.offset, gathering.buffer, dataSize]
  index := by
    simp [SSTableWriter.flushBlock, gathering.index, gathering.firstKey, gathering.start, gathering.offset,
      gathering.buffer, indexOf_append, indexOf]

theorem Flushed.startBlock (flushed : Flushed writer done) (entry : Entry) :
    Gathering { writer.startBlock entry with buffer := (writer.startBlock entry).buffer ++ encodeEntry entry } done
      [entry] where
  appended := by simp [SSTableWriter.startBlock, flushed.buffer, flushed.appended]
  buffer := by simp [SSTableWriter.startBlock, flushed.buffer, blockBytes]
  firstKey := by simp [SSTableWriter.startBlock, flushed.buffer, leadKey]
  start := by simp [SSTableWriter.startBlock, flushed.buffer]
  offset := by simp [SSTableWriter.startBlock, flushed.buffer, flushed.offset]
  index := by simp [SSTableWriter.startBlock, flushed.buffer, flushed.index]

theorem Gathering.grow (gathering : Gathering writer done current) (filled : current ≠ []) (entry : Entry) :
    Gathering { writer.startBlock entry with buffer := (writer.startBlock entry).buffer ++ encodeEntry entry } done
      (current ++ [entry]) := by
  have started : writer.startBlock entry = writer := by
    simp [SSTableWriter.startBlock, gathering.buffer, blockBytes_eq_nil_iff, filled]
  rw [started]
  obtain ⟨first, rest, split⟩ := List.exists_cons_of_ne_nil filled
  exact { gathering with
    buffer := by simp [gathering.buffer, blockBytes]
    firstKey := by simp [gathering.firstKey, leadKey, split] }

/-- One entry more: it joins the block that the buffer holds or starts the next. -/
theorem Gathering.add (gathering : Gathering writer done current) (entry : Entry) :
    if maxPagingSizeBytes < blockSize current + requiredSize entry then
      Gathering (writer.add entry) (done ++ [current]) [entry]
    else Gathering (writer.add entry) done (current ++ [entry]) := by
  have size : writer.buffer.length = blockSize current := by rw [gathering.buffer, length_blockBytes]
  split
  · rename_i full
    have room : writer.makeRoom entry = writer.flushBlock := by simp [SSTableWriter.makeRoom, size, full]
    have grown := gathering.flushBlock.startBlock entry
    rw [← room] at grown
    exact { grown with }
  · rename_i fits
    have room : writer.makeRoom entry = writer := by simp [SSTableWriter.makeRoom, size, fits]
    by_cases empty : current = []
    · subst empty
      have flushed : Flushed writer done :=
        ⟨gathering.appended, gathering.buffer, gathering.offset, gathering.index⟩
      have grown := flushed.startBlock entry
      rw [← room] at grown
      exact { grown with }
    · have grown := gathering.grow empty entry
      rw [← room] at grown
      exact { grown with }

theorem Gathering.flushRest (gathering : Gathering writer done current) :
    Flushed writer.flushRest (done ++ splitBlocks current []) := by
  by_cases empty : current = []
  · subst empty
    have kept : writer.flushRest = writer := by simp [SSTableWriter.flushRest, gathering.buffer, blockBytes]
    rw [kept, splitBlocks, if_pos rfl, List.append_nil]
    exact ⟨gathering.appended, gathering.buffer, gathering.offset, gathering.index⟩
  · have out : writer.flushRest = writer.flushBlock := by
      simp [SSTableWriter.flushRest, gathering.buffer, blockBytes_eq_nil_iff, empty]
    rw [out, splitBlocks, if_neg empty]
    exact gathering.flushBlock

/-- The writer cuts its entries into blocks as `splitBlocks` does. -/
theorem Gathering.addAll (gathering : Gathering writer done current) (entries : List Entry) :
    Flushed (writer.addAll entries).flushRest (done ++ splitBlocks current entries) := by
  induction entries generalizing writer done current with
  | nil => exact gathering.flushRest
  | cons entry later ih =>
    have grown := gathering.add entry
    rw [splitBlocks]
    by_cases full : maxPagingSizeBytes < blockSize current + requiredSize entry
    · rw [if_pos full] at grown ⊢
      have rest := ih grown
      rw [List.append_assoc] at rest
      exact rest
    · rw [if_neg full] at grown ⊢
      exact ih grown

theorem loadedWriter_flushed (sizing : BloomFilter.Sizing) (estimatedKeys : Nat) (entries : List Entry) :
    Flushed (loadedWriter sizing estimatedKeys entries) (blocksOf entries) :=
  (gathering_create sizing estimatedKeys).addAll entries

end

section

variable (sizing : BloomFilter.Sizing) (estimatedKeys : Nat) (entries : List Entry)

/-- What adding entries does to the rest of the writer. -/
theorem SSTableWriter.addAll_fields (writer : SSTableWriter) :
    (writer.addAll entries).flushRest.bloomFilter = writer.bloomFilter.addAll (entries.map Prod.fst) ∧
      (writer.addAll entries).flushRest.entryCount = writer.entryCount + entries.length ∧
      (writer.addAll entries).flushRest.highestSequence =
        entries.foldl (fun highest entry => max highest entry.2.sequence) writer.highestSequence := by
  have kept : ∀ writer : SSTableWriter, writer.flushRest.bloomFilter = writer.bloomFilter ∧
      writer.flushRest.entryCount = writer.entryCount ∧ writer.flushRest.highestSequence = writer.highestSequence := by
    intro writer
    unfold flushRest
    split
    · exact ⟨rfl, rfl, rfl⟩
    · exact ⟨rfl, rfl, rfl⟩
  have added : ∀ (writer : SSTableWriter) (entry : Entry),
      (writer.add entry).bloomFilter = writer.bloomFilter.add entry.1 ∧
        (writer.add entry).entryCount = writer.entryCount + 1 ∧
        (writer.add entry).highestSequence = max writer.highestSequence entry.2.sequence := by
    intro writer entry
    simp only [add, startBlock, makeRoom]
    split <;> split <;> exact ⟨rfl, rfl, rfl⟩
  obtain ⟨filter, count, highest⟩ := kept (writer.addAll entries)
  rw [filter, count, highest]
  clear filter count highest
  induction entries generalizing writer with
  | nil => exact ⟨rfl, rfl, rfl⟩
  | cons entry later ih =>
    obtain ⟨filter, count, highest⟩ := ih (writer.add entry)
    obtain ⟨filterAdded, countAdded, highestAdded⟩ := added writer entry
    refine ⟨?_, ?_, ?_⟩
    · refine filter.trans ?_
      rw [filterAdded]
      rfl
    · refine count.trans ?_
      rw [countAdded, List.length_cons]
      omega
    · refine highest.trans ?_
      rw [highestAdded, List.foldl_cons]

theorem loadedWriter_entryCount : (loadedWriter sizing estimatedKeys entries).entryCount = entries.length := by
  have count := (SSTableWriter.addAll_fields entries (.create sizing estimatedKeys)).2.1
  exact count.trans (Nat.zero_add _)

theorem loadedWriter_bloomFilter : (loadedWriter sizing estimatedKeys entries).bloomFilter =
    (BloomFilter.new sizing estimatedKeys).addAll (entries.map Prod.fst) :=
  (SSTableWriter.addAll_fields entries (.create sizing estimatedKeys)).1

theorem length_filterBlock : (loadedWriter sizing estimatedKeys entries).filterBlock.length =
    (BloomFilter.new sizing estimatedKeys).sizeBytes + 1 := by
  rw [SSTableWriter.filterBlock, List.length_append, ByteBuffer.length_encode, Nat.add_comm, loadedWriter_bloomFilter]
  exact congrArg (· + 1) (BloomFilter.sizeBytes_addAll _ _)

/-- A table file: blocks, index, filter, footer. -/
theorem tableFile_eq : tableFile sizing estimatedKeys entries =
    ((blocksOf entries).map blockBytes).flatten ++ ((loadedWriter sizing estimatedKeys entries).indexBlock ++
      ((loadedWriter sizing estimatedKeys entries).filterBlock ++
        encodeFooter (loadedWriter sizing estimatedKeys entries).footer)) := by
  have flushed := loadedWriter_flushed sizing estimatedKeys entries
  change ((loadedWriter sizing estimatedKeys entries).appended ++
    (loadedWriter sizing estimatedKeys entries).trailer).flatten = _
  rw [List.flatten_append, flushed.appended]
  simp [SSTableWriter.trailer]

end

end Enigma
