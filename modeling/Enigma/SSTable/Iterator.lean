import Enigma.SSTable.Reader
import Enigma.Engine.TableFormat

/-! The iterator over a table. It walks the index block by block and decodes the
entries of each; a block without bytes ends it as the end of the table does. -/

namespace Enigma

structure SSTableIterator where
  error : Option Error
  currentBlockIdx : Nat
  blockBuffer : Bytes
  blockOffset : Nat
  current : Entry
  valid : Bool

namespace SSTableIterator

def setError (iterator : SSTableIterator) (error : Error) : SSTableIterator :=
  { iterator with error := some error, valid := false }

/-- The entry at an offset of a block, and the offset behind it. -/
def readEntry (buffer : Bytes) (blockSize offset : Nat) : Except Error (Entry × Nat) :=
  if blockSize < offset + 4 then .error ⟨.badFile, "out of range read for key length"⟩
  else do
    let keyLen ← decodeUint32 buffer offset
    if blockSize < offset + 4 + keyLen then .error ⟨.badFile, "out of range read for key"⟩
    else do
      let key ← bytesAt buffer (offset + 4) keyLen
      if blockSize < offset + 4 + keyLen + 4 then .error ⟨.badFile, "out of range read for value length"⟩
      else do
        let valueLen ← decodeUint32 buffer (offset + 4 + keyLen)
        let valueEnd := offset + 4 + keyLen + 4 + valueLen
        if blockSize < valueEnd then .error ⟨.badFile, "out of range read for value"⟩
        else do
          let data ← bytesAt buffer (offset + 4 + keyLen + 4) valueLen
          if blockSize < valueEnd + 1 then .error ⟨.badFile, "out of range read for tombstone"⟩
          else do
            let tombstone ← decodeUint8 buffer valueEnd
            if blockSize < valueEnd + 1 + 8 then .error ⟨.badFile, "out of range read for sequence"⟩
            else do
              let sequence ← decodeUint64 buffer (valueEnd + 1)
              return ((key, ⟨data, tombstone ≠ 0, sequence⟩), valueEnd + 1 + 8)

variable (reader : SSTableReader) (failure : Nat → Option Error)

/-- The index entry of the current block. The code never asks for one that is not
there while it is valid. -/
def currentBlock (iterator : SSTableIterator) : IndexEntry :=
  reader.indexEntries.getD iterator.currentBlockIdx ⟨[], 0, 0⟩

/-- The iterator with the block at its index, or with the error of the read. -/
def loadBlock (iterator : SSTableIterator) : SSTableIterator × Bool :=
  let block := iterator.currentBlock reader
  let answer : Except Error Bytes :=
    match failure iterator.currentBlockIdx with
    | some error => .error error
    | none => readBuffer iterator.blockBuffer reader.file block.blockSize block.blockOffset
  match answer with
  | .error error => ({ iterator with blockOffset := 0 }.setError error, false)
  | .ok blockBuffer => ({ iterator with blockBuffer := blockBuffer, blockOffset := 0 }, true)

/-- The part of `next` behind the change of blocks. -/
def decodeNext (iterator : SSTableIterator) : SSTableIterator :=
  if iterator.blockBuffer = [] then { iterator with valid := false }
  else
    match readEntry iterator.blockBuffer (iterator.currentBlock reader).blockSize iterator.blockOffset with
    | .error error => iterator.setError error
    | .ok (entry, offset) => { iterator with current := entry, blockOffset := offset, valid := true }

def next (iterator : SSTableIterator) : SSTableIterator :=
  if iterator.error.isSome then iterator
  else if iterator.blockBuffer ≠ [] ∧ (iterator.currentBlock reader).blockSize ≤ iterator.blockOffset then
    let iterator := { iterator with currentBlockIdx := iterator.currentBlockIdx + 1 }
    if reader.indexEntries.length ≤ iterator.currentBlockIdx then { iterator with valid := false }
    else
      match iterator.loadBlock reader failure with
      | (iterator, false) => iterator
      | (iterator, true) => iterator.decodeNext reader
  else iterator.decodeNext reader

/-- An iterator that has not been moved yet. -/
def new : SSTableIterator := ⟨none, 0, [], 0, ([], ⟨[], false, 0⟩), false⟩

def seekToFirst (iterator : SSTableIterator) : SSTableIterator :=
  let iterator := { iterator with error := none, currentBlockIdx := 0, blockBuffer := [], blockOffset := 0, valid := false }
  if reader.indexEntries = [] then iterator
  else
    match iterator.loadBlock reader failure with
    | (iterator, false) => iterator
    | (iterator, true) => iterator.next reader failure

/-- The entries that `next` leads to while the iterator is valid. -/
def drain : Nat → SSTableIterator → List Entry × SSTableIterator
  | 0, iterator => ([], iterator)
  | remaining + 1, iterator =>
    if iterator.valid then
      let (rest, last) := drain remaining (iterator.next reader failure)
      (iterator.current :: rest, last)
    else ([], iterator)

/-- A full scan. An entry takes more than one byte of a block, so the sum of the
block sizes never runs out. -/
def scan : Cursor :=
  let (entries, last) := drain reader failure (reader.indexEntries.map IndexEntry.blockSize).sum
    (new.seekToFirst reader failure)
  ⟨entries, last.error⟩

end SSTableIterator

/-- An entry whose lengths and sequence fit their fields. -/
structure EntryFits (entry : Entry) : Prop where
  key : entry.1.length < 2 ^ 32
  data : entry.2.data.length < 2 ^ 32
  sequence : entry.2.sequence < 2 ^ 64

/-- A reader whose index and data are those of some blocks, all of them at offsets
that can be read. -/
structure TableOf (reader : SSTableReader) (blocks : List (List Entry)) : Prop where
  index : reader.indexEntries = indexOf 0 blocks
  offsets : dataSize blocks < 2 ^ 63
  data : ∃ rest, reader.file = (blocks.map blockBytes).flatten ++ rest
  fits : ∀ block ∈ blocks, ∀ entry ∈ block, EntryFits entry

theorem length_indexOf (offset : Nat) (blocks : List (List Entry)) : (indexOf offset blocks).length = blocks.length := by
  induction blocks generalizing offset with
  | nil => rfl
  | cons block later ih => simp [indexOf, ih]

namespace SSTableIterator

section

variable {reader : SSTableReader} {failure : Nat → Option Error} {iterator : SSTableIterator}
  {done later : List (List Entry)} {block : List Entry}

theorem readEntry_at {buffer rest : Bytes} {blockSize offset : Nat} {entry : Entry}
    (here : ByteBuffer.At buffer offset (encodeEntry entry ++ rest)) (inside : offset + requiredSize entry ≤ blockSize)
    (fits : EntryFits entry) : readEntry buffer blockSize offset = .ok (entry, offset + requiredSize entry) := by
  obtain ⟨key, data, isTombstone, sequence⟩ := entry
  simp only [encodeEntry, List.append_assoc] at here
  simp only [requiredSize] at inside ⊢
  have atKey := here.after_number
  have atValueLen := atKey.after
  have atValue := atValueLen.after_number
  have atTombstone := atValue.after
  have atSequence := atTombstone.after_number
  have keyLen : decodeUint 4 buffer offset = .ok key.length :=
    (decodeUint_at here).trans (by rw [Nat.mod_eq_of_lt fits.key])
  have valueLen : decodeUint 4 buffer (offset + 4 + key.length) = .ok data.length :=
    (decodeUint_at atValueLen).trans (by rw [Nat.mod_eq_of_lt fits.data])
  have sequenceRead : decodeUint 8 buffer (offset + 4 + key.length + 4 + data.length + 1) = .ok sequence :=
    (decodeUint_at atSequence).trans (by rw [Nat.mod_eq_of_lt fits.sequence])
  have tombstone := decodeUint_at atTombstone
  have keyLenInside : ¬ blockSize < offset + 4 := by omega
  have keyInside : ¬ blockSize < offset + 4 + key.length := by omega
  have valueLenInside : ¬ blockSize < offset + 4 + key.length + 4 := by omega
  have valueInside : ¬ blockSize < offset + 4 + key.length + 4 + data.length := by omega
  have tombstoneInside : ¬ blockSize < offset + 4 + key.length + 4 + data.length + 1 := by omega
  have sequenceInside : ¬ blockSize < offset + 4 + key.length + 4 + data.length + 1 + 8 := by omega
  simp only [readEntry, keyLenInside, ↓reduceIte, keyLen, bind, Except.bind, keyInside, bytesAt_at atKey, valueLenInside,
    valueLen, valueInside, bytesAt_at atValue, tombstoneInside, tombstone, sequenceInside, sequenceRead]
  cases isTombstone <;> simp [pure, Except.pure] <;> omega

/-- The index entry of the block in the middle. -/
theorem currentBlock_at (table : TableOf reader (done ++ block :: later)) (index : iterator.currentBlockIdx = done.length) :
    iterator.currentBlock reader = ⟨leadKey block, dataSize done, blockSize block⟩ := by
  rw [currentBlock, index, table.index, indexOf_append, List.getD_eq_getElem?_getD,
    List.getElem?_append_right (by rw [length_indexOf]), length_indexOf, Nat.sub_self, Nat.zero_add]
  rfl

theorem readBuffer_block (table : TableOf reader (done ++ block :: later)) (old : Bytes) :
    readBuffer old reader.file (blockSize block) (dataSize done) = .ok (blockBytes block) := by
  have small : dataSize done < 2 ^ 63 := by
    refine Nat.lt_of_le_of_lt ?_ table.offsets
    rw [dataSize, dataSize, List.map_append, List.sum_append]
    exact Nat.le_add_right _ _
  obtain ⟨rest, data⟩ := table.data
  have here := ByteBuffer.at_append (done.map blockBytes).flatten
    (blockBytes block ++ ((later.map blockBytes).flatten ++ rest))
  have whole : (done.map blockBytes).flatten ++ (blockBytes block ++ ((later.map blockBytes).flatten ++ rest)) =
      reader.file := by
    rw [data]
    simp
  rw [whole, length_dataBytes] at here
  rw [readBuffer_ok small, ← length_blockBytes, readInto_at old here]

/-- Where an iterator stands: in a block, with some of its entries ahead. -/
structure Standing (iterator : SSTableIterator) (done : List (List Entry)) (block remaining : List Entry) : Prop where
  error : iterator.error = none
  index : iterator.currentBlockIdx = done.length
  buffer : iterator.blockBuffer = blockBytes block
  filled : block ≠ []
  ahead : ∀ entry ∈ remaining, entry ∈ block
  here : ByteBuffer.At (blockBytes block) iterator.blockOffset (blockBytes remaining)

/-- What the iterator delivers from its current entry on, given the time. -/
def Delivers (reader : SSTableReader) (failure : Nat → Option Error) (iterator : SSTableIterator) (cursor : Cursor) :
    Prop :=
  ∀ remaining, cursor.rest.length ≤ remaining → ∃ last, drain reader failure remaining iterator = (cursor.rest, last) ∧
    last.error = cursor.failure

theorem delivers_invalid {error : Option Error} (invalid : iterator.valid = false) (ended : iterator.error = error) :
    Delivers reader failure iterator ⟨[], error⟩ := by
  intro remaining _
  cases remaining with
  | zero => exact ⟨iterator, rfl, ended⟩
  | succ remaining => exact ⟨iterator, by simp [drain, invalid], ended⟩

theorem delivers_valid {cursor : Cursor} (valid : iterator.valid = true)
    (later : Delivers reader failure (iterator.next reader failure) cursor) :
    Delivers reader failure iterator ⟨iterator.current :: cursor.rest, cursor.failure⟩ := by
  intro remaining enough
  obtain ⟨remaining, rfl⟩ : ∃ fewer, remaining = fewer + 1 := ⟨remaining - 1, by simp at enough; omega⟩
  obtain ⟨last, drained, ended⟩ := later remaining (by simpa using enough)
  exact ⟨last, by simp [drain, valid, drained], ended⟩

/-- Decoding the next entry of the block. -/
theorem Standing.decodeNext {entry : Entry} {remaining : List Entry} (table : TableOf reader (done ++ block :: later))
    (standing : Standing iterator done block (entry :: remaining)) :
    (iterator.decodeNext reader).valid = true ∧ (iterator.decodeNext reader).current = entry ∧
      Standing (iterator.decodeNext reader) done block remaining := by
  have filled : iterator.blockBuffer ≠ [] := by
    rw [standing.buffer]
    exact mt blockBytes_eq_nil_iff.mp standing.filled
  have here := standing.here
  rw [blockBytes, blockBytes, List.flatMap_cons, ← blockBytes, ← blockBytes] at here
  have length := here.length
  rw [List.length_append, length_encodeEntry, length_blockBytes, length_blockBytes] at length
  have read : readEntry (blockBytes block) (blockSize block) iterator.blockOffset = _ :=
    readEntry_at here (by omega) (table.fits block (by simp) entry (standing.ahead entry (by simp)))
  have after : iterator.decodeNext reader =
      { iterator with current := entry, blockOffset := iterator.blockOffset + requiredSize entry, valid := true } := by
    simp only [SSTableIterator.decodeNext, filled, ↓reduceIte, currentBlock_at table standing.index]
    rw [standing.buffer, read]
  rw [after]
  refine ⟨rfl, rfl, { standing with ahead := fun other member => standing.ahead other (by simp [member]), here := ?_ }⟩
  have next := here.after
  rwa [length_encodeEntry] at next

/-- What happens when an iterator moves to a block, read or not. -/
theorem delivers_enter (table : TableOf reader (done ++ block :: later)) (fine : iterator.error = none)
    (index : iterator.currentBlockIdx = done.length)
    (inside : ∀ (iterator : SSTableIterator) (remaining : List Entry), Standing iterator done block remaining →
      Delivers reader failure (iterator.next reader failure)
        ⟨remaining ++ (TableShape.scanBlocks failure (done.length + 1) later).rest,
          (TableShape.scanBlocks failure (done.length + 1) later).failure⟩) :
    Delivers reader failure (match iterator.loadBlock reader failure with
      | (iterator, false) => iterator
      | (iterator, true) => iterator.decodeNext reader) (TableShape.scanBlocks failure done.length (block :: later)) := by
  rw [loadBlock, index, TableShape.scanBlocks]
  cases read : failure done.length with
  | some error => exact delivers_invalid rfl rfl
  | none =>
    simp only [currentBlock_at table index, readBuffer_block table]
    let loaded : SSTableIterator :=
      { iterator with currentBlockIdx := done.length, blockBuffer := blockBytes block, blockOffset := 0 }
    change Delivers reader failure (loaded.decodeNext reader) _
    cases block with
    | nil =>
      have ended : loaded.decodeNext reader = { loaded with valid := false } := by
        simp [SSTableIterator.decodeNext, loaded, blockBytes]
      rw [ended]
      exact delivers_invalid rfl fine
    | cons entry remaining =>
      have standing : Standing loaded done (entry :: remaining) (entry :: remaining) :=
        ⟨fine, rfl, rfl, by simp, fun _ member => member, ByteBuffer.at_start _⟩
      obtain ⟨valid, current, ahead⟩ := standing.decodeNext table
      have delivered := delivers_valid valid (inside _ _ ahead)
      rwa [current] at delivered

theorem Standing.next_inside {entry : Entry} {remaining : List Entry} (table : TableOf reader (done ++ block :: later))
    (standing : Standing iterator done block (entry :: remaining)) :
    iterator.next reader failure = iterator.decodeNext reader := by
  have length := standing.here.length
  have positive := requiredSize_pos entry
  rw [length_blockBytes, length_blockBytes, blockSize_cons] at length
  have within : ¬ (iterator.currentBlock reader).blockSize ≤ iterator.blockOffset := by
    rw [currentBlock_at table standing.index]
    simp only
    omega
  simp [next, standing.error, within]

theorem Standing.next_across (table : TableOf reader (done ++ block :: later))
    (standing : Standing iterator done block []) : iterator.next reader failure =
      if later = [] then { iterator with currentBlockIdx := done.length + 1, valid := false }
      else match { iterator with currentBlockIdx := done.length + 1 }.loadBlock reader failure with
        | (iterator, false) => iterator
        | (iterator, true) => iterator.decodeNext reader := by
  have length := standing.here.length
  have filled : iterator.blockBuffer ≠ [] := by
    rw [standing.buffer]
    exact mt blockBytes_eq_nil_iff.mp standing.filled
  have exhausted : (iterator.currentBlock reader).blockSize ≤ iterator.blockOffset := by
    rw [currentBlock_at table standing.index]
    rw [length_blockBytes, length_blockBytes, blockSize_eq_zero_iff.mpr rfl] at length
    exact length.le
  have count : reader.indexEntries.length ≤ done.length + 1 ↔ later = [] := by
    rw [table.index, length_indexOf, List.length_append, List.length_cons, ← List.length_eq_zero_iff]
    omega
  simp only [next, standing.error, Option.isSome_none, Bool.false_eq_true, ↓reduceIte, filled, ne_eq, not_false_eq_true,
    exhausted, and_self, standing.index, count]

/-- The rest of a block comes before what follows it. -/
theorem Standing.delivers_rest {remaining : List Entry} {cursor : Cursor} (table : TableOf reader (done ++ block :: later))
    (crossing : ∀ iterator : SSTableIterator, Standing iterator done block [] →
      Delivers reader failure (iterator.next reader failure) cursor)
    (standing : Standing iterator done block remaining) :
    Delivers reader failure (iterator.next reader failure) ⟨remaining ++ cursor.rest, cursor.failure⟩ := by
  induction remaining generalizing iterator with
  | nil => exact crossing iterator standing
  | cons entry remaining ih =>
    obtain ⟨valid, current, ahead⟩ := standing.decodeNext table
    rw [standing.next_inside table]
    have delivered := delivers_valid valid (ih ahead)
    rwa [current] at delivered

/-- From inside a block: the rest of it, then the blocks behind it. -/
theorem Standing.delivers {remaining : List Entry} (table : TableOf reader (done ++ block :: later))
    (standing : Standing iterator done block remaining) :
    Delivers reader failure (iterator.next reader failure)
      ⟨remaining ++ (TableShape.scanBlocks failure (done.length + 1) later).rest,
        (TableShape.scanBlocks failure (done.length + 1) later).failure⟩ := by
  induction later generalizing iterator done block remaining with
  | nil =>
    refine standing.delivers_rest table fun iterator last => ?_
    rw [last.next_across table, if_pos rfl]
    exact delivers_invalid rfl last.error
  | cons following behind ih =>
    refine standing.delivers_rest table fun iterator last => ?_
    have shifted : TableOf reader ((done ++ [block]) ++ following :: behind) := by simpa using table
    have length : done.length + 1 = (done ++ [block]).length := by simp
    rw [last.next_across table, if_neg (by simp), length]
    exact delivers_enter shifted last.error rfl fun _ _ standing => ih shifted standing

/-- Right after its block is loaded, the iterator does not leave it. -/
theorem next_fresh (table : TableOf reader (done ++ block :: later)) (fine : iterator.error = none)
    (index : iterator.currentBlockIdx = done.length) (buffer : iterator.blockBuffer = blockBytes block)
    (start : iterator.blockOffset = 0) : iterator.next reader failure = iterator.decodeNext reader := by
  have stays : ¬ (blockBytes block ≠ [] ∧ blockSize block ≤ 0) := by
    rintro ⟨bytes, none⟩
    exact bytes (blockBytes_eq_nil_iff.mpr (blockSize_eq_zero_iff.mp (Nat.le_zero.mp none)))
  rw [next, if_neg (by simp [fine]), buffer, start, currentBlock_at table index, if_neg stays]

theorem seekToFirst_table (table : TableOf reader ([] ++ block :: later)) : new.seekToFirst reader failure =
    match new.loadBlock reader failure with
    | (iterator, false) => iterator
    | (iterator, true) => iterator.decodeNext reader := by
  have filled : reader.indexEntries ≠ [] := by simp [table.index, indexOf]
  have current : new.currentBlock reader = ⟨leadKey block, dataSize [], blockSize block⟩ := currentBlock_at table rfl
  have read : readBuffer new.blockBuffer reader.file (new.currentBlock reader).blockSize
      (new.currentBlock reader).blockOffset = .ok (blockBytes block) := by
    rw [current]
    exact readBuffer_block table []
  simp only [seekToFirst, filled, ↓reduceIte]
  change (match new.loadBlock reader failure with
    | (iterator, false) => iterator
    | (iterator, true) => iterator.next reader failure) = _
  have start : new.currentBlockIdx = 0 := rfl
  rw [loadBlock, start]
  cases failure 0 with
  | some error => rfl
  | none =>
    simp only [read]
    exact next_fresh table rfl rfl rfl rfl

theorem length_scanBlocks (index : Nat) (blocks : List (List Entry)) :
    (TableShape.scanBlocks failure index blocks).rest.length ≤ dataSize blocks := by
  induction blocks generalizing index with
  | nil => simp [TableShape.scanBlocks]
  | cons block later ih =>
    have size : block.length ≤ blockSize block := by
      rw [blockSize]
      have counted := List.length_le_sum_of_one_le (block.map requiredSize) (by
        intro size member
        obtain ⟨entry, _, rfl⟩ := List.mem_map.mp member
        exact requiredSize_pos entry)
      rwa [List.length_map] at counted
    have rest := ih (index + 1)
    rw [TableShape.scanBlocks]
    cases failure index with
    | some error => simp
    | none =>
      by_cases empty : block = []
      · simp [empty]
      · simp only [empty, ↓reduceIte, List.length_append, dataSize_cons]
        omega

theorem indexOf_sizes (offset : Nat) (blocks : List (List Entry)) :
    ((indexOf offset blocks).map IndexEntry.blockSize).sum = dataSize blocks := by
  induction blocks generalizing offset with
  | nil => rfl
  | cons block later ih => simp [indexOf, ih, dataSize]

/-- A full scan of a table reads its blocks in order. -/
theorem scan_table {blocks : List (List Entry)} (table : TableOf reader blocks) :
    scan reader failure = TableShape.scanBlocks failure 0 blocks := by
  have delivered : Delivers reader failure (new.seekToFirst reader failure) (TableShape.scanBlocks failure 0 blocks) := by
    cases blocks with
    | nil =>
      have empty : reader.indexEntries = [] := table.index
      simp only [seekToFirst, empty, ↓reduceIte]
      exact delivers_invalid rfl rfl
    | cons block later =>
      have first : TableOf reader ([] ++ block :: later) := table
      rw [seekToFirst_table first]
      exact delivers_enter first rfl rfl fun _ _ standing => standing.delivers first
  obtain ⟨last, drained, ended⟩ := delivered (reader.indexEntries.map IndexEntry.blockSize).sum (by
    rw [table.index, indexOf_sizes]
    exact length_scanBlocks 0 blocks)
  rw [scan, drained]
  simp only [ended]

end

end SSTableIterator

end Enigma
