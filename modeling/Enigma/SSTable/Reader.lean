import Enigma.SSTable.Writer
import Mathlib.Algebra.Order.BigOperators.Group.List

/-! Opening a table: the footer, then index and filter in one read. Sizes in the
footer are 32-bit, and so is their sum. -/

namespace Enigma

structure SSTableReader where
  file : Bytes
  indexEntries : List IndexEntry
  bloomFilter : BloomFilter
  footer : SSTFooter
  deriving DecidableEq

namespace SSTableReader

/-- The footer from its bytes. -/
def readFooter (buffer : Bytes) : Except Error SSTFooter :=
  if (buffer.drop magicBytesOffset).take magic.length ≠ magic then .error ⟨.badMagic, "invalid magic"⟩
  else do
    let storedChecksum ← decodeUint32 buffer footerChecksumOffset
    if storedChecksum ≠ (computeCrc32 (buffer.take footerChecksumOffset)).toNat then
      .error ⟨.badConfig, "invalid checksum"⟩
    else do
      let indexBlockOffset ← decodeUint64 buffer 0
      let indexBlockSize ← decodeUint32 buffer 8
      let filterBlockOffset ← decodeUint64 buffer 12
      let filterBlockSize ← decodeUint32 buffer 20
      if filterBlockSize < 2 then .error ⟨.badConfig, "invalid filter block size"⟩
      else do
        let entryCount ← decodeUint32 buffer 24
        let formatVersion ← decodeUint16 buffer 28
        let highestSequence ← decodeUint64 buffer 30
        let sizeBytes ← decodeUint64 buffer 38
        return ⟨indexBlockOffset, indexBlockSize, filterBlockOffset, filterBlockSize, entryCount, formatVersion,
          highestSequence, sizeBytes⟩

/-- The index entries from an offset on, and the offset behind the last. An entry
takes at least sixteen bytes, so a count of the index's size never runs out. -/
def readIndex (buffer : Bytes) (indexBlockSize : Nat) : Nat → Nat → Except Error (List IndexEntry × Nat)
  | 0, offset => .ok ([], offset)
  | remaining + 1, offset =>
    if offset < indexBlockSize then
      if indexBlockSize < offset + 4 then .error ⟨.readOutOfRange, "key read out of range"⟩
      else do
        let keyLen ← decodeUint32 buffer offset
        if indexBlockSize < offset + 4 + keyLen + 8 + 4 then .error ⟨.readOutOfRange, "index entry out of range"⟩
        else do
          let firstKey ← bytesAt buffer (offset + 4) keyLen
          let blockOffset ← decodeUint64 buffer (offset + 4 + keyLen)
          let blockSize ← decodeUint32 buffer (offset + 4 + keyLen + 8)
          let (rest, last) ← readIndex buffer indexBlockSize remaining (offset + 4 + keyLen + 8 + 4)
          return (⟨firstKey, blockOffset, blockSize⟩ :: rest, last)
    else .ok ([], offset)

/-- Index and filter, where the footer says they are. -/
def readBlocks (file : Bytes) (footer : SSTFooter) : Except Error SSTableReader := do
  let buffer ← readBuffer [] file ((footer.indexBlockSize + footer.filterBlockSize) % 2 ^ 32) footer.indexBlockOffset
  let (indexEntries, offset) ← readIndex buffer footer.indexBlockSize footer.indexBlockSize 0
  let numHashes ← decodeUint8 buffer offset
  let bitArray ← bytesAt buffer (offset + 1) (footer.filterBlockSize - 1)
  return ⟨file, indexEntries, .ofBytes bitArray numHashes, footer⟩

def create (file : Bytes) : Except Error SSTableReader :=
  if file.length < footerSize then .error ⟨.badConfig, "file too small for SSTable"⟩
  else do
    let footer ← readFooter (readInto [] file footerSize (file.length - footerSize))
    readBlocks file footer

/-- The linear search of `get` through a block. An entry takes at least seventeen
bytes, so a count of the block's size never runs out. -/
def searchBlock (buffer : Bytes) (blockSize : Nat) (key : Key) : Nat → Nat → Except Error (Option InternalValue)
  | 0, _ => .ok none
  | remaining + 1, offset =>
    if offset < blockSize then
      if blockSize < offset + 4 then .error ⟨.badFile, "out of range read for key len"⟩
      else do
        let keyLen ← decodeUint32 buffer offset
        if blockSize < offset + 4 + keyLen then .error ⟨.badFile, "out of range read for key"⟩
        else do
          let entryKey ← bytesAt buffer (offset + 4) keyLen
          if blockSize < offset + 4 + keyLen + 4 then .error ⟨.badFile, "out of range read for value len"⟩
          else do
            let valueLen ← decodeUint32 buffer (offset + 4 + keyLen)
            let valueEnd := offset + 4 + keyLen + 4 + valueLen
            if blockSize < valueEnd then .error ⟨.badFile, "out of range read for value"⟩
            else if key = entryKey then do
              let data ← bytesAt buffer (offset + 4 + keyLen + 4) valueLen
              if blockSize < valueEnd + 1 then .error ⟨.badFile, "out of range read for tombstone"⟩
              else do
                let tombstone ← decodeUint8 buffer valueEnd
                if blockSize < valueEnd + 1 + 8 then .error ⟨.badFile, "out of range read for sequence"⟩
                else do
                  let sequence ← decodeUint64 buffer (valueEnd + 1)
                  return some ⟨data, tombstone ≠ 0, sequence⟩
            else if key < entryKey then .ok none
            else if blockSize < valueEnd + 9 then .error ⟨.unexpectedErr, "Truncated entry."⟩
            else searchBlock buffer blockSize key remaining (valueEnd + 9)
    else .ok none

/-- The block that may hold a key: the last one that does not start above it. -/
def blockOf (reader : SSTableReader) (key : Key) : Option IndexEntry :=
  (reader.indexEntries.takeWhile fun entry => ¬ key < entry.firstKey).getLast?

def get (reader : SSTableReader) (key : Key) : Except Error (Option InternalValue) :=
  if !reader.bloomFilter.mayContain key then .ok none
  else
    match reader.blockOf key with
    | none => .ok none
    | some block => do
      let blockBuffer ← readBuffer [] reader.file block.blockSize block.blockOffset
      searchBlock blockBuffer block.blockSize key block.blockSize 0

end SSTableReader

/-- What the widths of the fields keep of an index entry. -/
def IndexEntry.stored (entry : IndexEntry) : IndexEntry :=
  ⟨entry.firstKey, entry.blockOffset % 2 ^ 64, entry.blockSize % 2 ^ 32⟩

/-- What the widths of the fields keep of a footer. -/
def SSTFooter.stored (footer : SSTFooter) : SSTFooter where
  indexBlockOffset := footer.indexBlockOffset % 2 ^ 64
  indexBlockSize := footer.indexBlockSize % 2 ^ 32
  filterBlockOffset := footer.filterBlockOffset % 2 ^ 64
  filterBlockSize := footer.filterBlockSize % 2 ^ 32
  entryCount := footer.entryCount % 2 ^ 32
  formatVersion := footer.formatVersion % 2 ^ 16
  highestSequence := footer.highestSequence % 2 ^ 64
  sizeBytes := footer.sizeBytes % 2 ^ 64

namespace SSTableReader

section

variable {buffer : Bytes} {offset : Nat}

/-- The index is read back as far as its fields hold it. -/
theorem readIndex_at {entries : List IndexEntry} {rest : Bytes} {indexBlockSize remaining : Nat}
    (here : ByteBuffer.At buffer offset (entries.flatMap encodeIndexEntry ++ rest))
    (size : indexBlockSize = offset + (entries.flatMap encodeIndexEntry).length)
    (keys : ∀ entry ∈ entries, entry.firstKey.length < 2 ^ 32) (enough : entries.length ≤ remaining) :
    readIndex buffer indexBlockSize remaining offset = .ok (entries.map IndexEntry.stored, indexBlockSize) := by
  induction entries generalizing offset remaining with
  | nil =>
    have ends : ¬ offset < indexBlockSize := by simp [size]
    have same : indexBlockSize = offset := by simp [size]
    cases remaining with
    | zero => simp [readIndex, same]
    | succ remaining => simp [readIndex, same]
  | cons entry later ih =>
    obtain ⟨remaining, rfl⟩ : ∃ fewer, remaining = fewer + 1 := ⟨remaining - 1, by simp at enough; omega⟩
    have keyFits := keys entry (by simp)
    have total : indexBlockSize = offset + 4 + entry.firstKey.length + 8 + 4 +
        (later.flatMap encodeIndexEntry).length := by
      rw [size, List.flatMap_cons, List.length_append, length_encodeIndexEntry]
      omega
    rw [List.flatMap_cons] at here
    simp only [encodeIndexEntry, List.append_assoc] at here
    have atKey := here.after_number
    have atOffset := atKey.after
    have atSize := atOffset.after_number
    have atNext := atSize.after_number
    have keyLen : decodeUint 4 buffer offset = .ok entry.firstKey.length :=
      (decodeUint_at here).trans (by rw [Nat.mod_eq_of_lt keyFits])
    have blockOffset := decodeUint_at atOffset
    have blockSize := decodeUint_at atSize
    have inside : offset < indexBlockSize := by omega
    have keyInside : ¬ indexBlockSize < offset + 4 := by omega
    have entryInside : ¬ indexBlockSize < offset + 4 + entry.firstKey.length + 8 + 4 := by omega
    have later := ih atNext total (fun other member => keys other (by simp [member])) (by simpa using enough)
    simp only [readIndex, inside, ↓reduceIte, keyInside, keyLen, bind, Except.bind, entryInside, bytesAt_at atKey,
      blockOffset, blockSize, later]
    rfl

/-- When the index is read, its whole length has been passed. -/
theorem readIndex_passed {indexBlockSize remaining last : Nat} {entries : List IndexEntry}
    (enough : indexBlockSize ≤ offset + remaining)
    (read : readIndex buffer indexBlockSize remaining offset = .ok (entries, last)) : indexBlockSize ≤ last := by
  induction remaining generalizing offset entries with
  | zero =>
    cases read
    exact enough
  | succ remaining ih =>
    simp only [readIndex] at read
    split at read
    · split at read
      · cases read
      · obtain ⟨keyLen, _, read⟩ := exists_of_bind_ok read
        split at read
        · cases read
        · obtain ⟨firstKey, _, read⟩ := exists_of_bind_ok read
          obtain ⟨blockOffset, _, read⟩ := exists_of_bind_ok read
          obtain ⟨blockSize, _, read⟩ := exists_of_bind_ok read
          obtain ⟨⟨rest, behind⟩, later, read⟩ := exists_of_bind_ok read
          cases read
          exact ih (by omega) later
    · cases read
      omega

/-- The footer is read back as far as its fields hold it, unless the filter is too
small. -/
theorem readFooter_encodeFooter (footer : SSTFooter) : readFooter (encodeFooter footer) =
    if footer.filterBlockSize % 2 ^ 32 < 2 then .error ⟨.badConfig, "invalid filter block size"⟩
    else .ok footer.stored := by
  have front : (encodeFooter footer).take footerChecksumOffset = encodeFooterFields footer := by
    simp only [encodeFooter, List.append_assoc]
    exact List.take_left' (length_encodeFooterFields footer)
  have atIndexOffset : ByteBuffer.At (encodeFooter footer) 0 (encodeFooter footer) := ByteBuffer.at_start _
  generalize whole : encodeFooter footer = buffer at front atIndexOffset ⊢
  nth_rewrite 2 [← whole] at atIndexOffset
  simp only [encodeFooter, encodeFooterFields, List.append_assoc] at atIndexOffset
  have atIndexSize := atIndexOffset.after_number
  have atFilterOffset := atIndexSize.after_number
  have atFilterSize := atFilterOffset.after_number
  have atEntryCount := atFilterSize.after_number
  have atVersion := atEntryCount.after_number
  have atSequence := atVersion.after_number
  have atSizeBytes := atSequence.after_number
  have atChecksum := atSizeBytes.after_number
  have atMagic := atChecksum.after_number
  have letters : (buffer.drop magicBytesOffset).take magic.length = magic :=
    (congrArg (List.take magic.length) atMagic.bytes).trans List.take_left
  have checksum : decodeUint 4 buffer footerChecksumOffset = .ok (computeCrc32 (encodeFooterFields footer)).toNat :=
    (decodeUint_at atChecksum).trans (by
      simp only [encodeFooterFields, List.append_assoc]
      rw [Nat.mod_eq_of_lt (UInt32.toNat_lt _)])
  have indexOffset : decodeUint 8 buffer 0 = .ok (footer.indexBlockOffset % 2 ^ 64) := decodeUint_at atIndexOffset
  have indexSize : decodeUint 4 buffer 8 = .ok (footer.indexBlockSize % 2 ^ 32) := decodeUint_at atIndexSize
  have filterOffset : decodeUint 8 buffer 12 = .ok (footer.filterBlockOffset % 2 ^ 64) := decodeUint_at atFilterOffset
  have filterSize : decodeUint 4 buffer 20 = .ok (footer.filterBlockSize % 2 ^ 32) := decodeUint_at atFilterSize
  have entryCount : decodeUint 4 buffer 24 = .ok (footer.entryCount % 2 ^ 32) := decodeUint_at atEntryCount
  have version : decodeUint 2 buffer 28 = .ok (footer.formatVersion % 2 ^ 16) := decodeUint_at atVersion
  have sequence : decodeUint 8 buffer 30 = .ok (footer.highestSequence % 2 ^ 64) := decodeUint_at atSequence
  have sizeBytes : decodeUint 8 buffer 38 = .ok (footer.sizeBytes % 2 ^ 64) := decodeUint_at atSizeBytes
  simp only [readFooter, letters, front, checksum, indexOffset, indexSize, filterOffset, filterSize, entryCount, version,
    sequence, sizeBytes, bind, Except.bind, ne_eq, not_true_eq_false, ↓reduceIte]
  rfl

/-- An index has at least sixteen bytes for each entry. -/
theorem index_count (entries : List IndexEntry) : 16 * entries.length ≤ (entries.flatMap encodeIndexEntry).length := by
  induction entries with
  | nil => simp
  | cons entry later ih =>
    rw [List.flatMap_cons, List.length_append, length_encodeIndexEntry, List.length_cons]
    omega

/-- The keys of an index are shorter than the index. -/
theorem index_keys {entries : List IndexEntry} {bound : Nat} (short : (entries.flatMap encodeIndexEntry).length < bound) :
    ∀ entry ∈ entries, entry.firstKey.length < bound := by
  intro entry member
  have part : (encodeIndexEntry entry).length ≤ (entries.flatMap encodeIndexEntry).length := by
    rw [List.length_flatMap]
    exact List.single_le_sum (fun _ _ => Nat.zero_le _) _ (List.mem_map.mpr ⟨entry, member, rfl⟩)
  rw [length_encodeIndexEntry] at part
  omega

/-- Index and filter are read back where they stand, if their sizes together fit
32 bits. -/
theorem readBlocks_at {file bits rest : Bytes} {entries : List IndexEntry} {numHashes : Nat} {footer : SSTFooter}
    (here : ByteBuffer.At file footer.indexBlockOffset
      (entries.flatMap encodeIndexEntry ++ (encodeUint8 numHashes ++ bits) ++ rest))
    (indexSize : footer.indexBlockSize = (entries.flatMap encodeIndexEntry).length)
    (filterSize : footer.filterBlockSize = 1 + bits.length)
    (together : footer.indexBlockSize + footer.filterBlockSize < 2 ^ 32) (offset : footer.indexBlockOffset < 2 ^ 63) :
    readBlocks file footer = .ok ⟨file, entries.map .stored, .ofBytes bits (numHashes % 2 ^ 8), footer⟩ := by
  have buffer := readInto_at [] here
  rw [List.length_append, List.length_append, ByteBuffer.length_encode, ← filterSize, ← indexSize] at buffer
  have short : (entries.flatMap encodeIndexEntry).length < 2 ^ 32 := by omega
  have index := readIndex_at (ByteBuffer.at_start (entries.flatMap encodeIndexEntry ++ (encodeUint8 numHashes ++ bits)))
    (Nat.zero_add _).symm (index_keys short) ((Nat.le_mul_of_pos_left _ (by decide)).trans (index_count entries))
  have atFilter := ByteBuffer.at_append (entries.flatMap encodeIndexEntry) (encodeUint8 numHashes ++ bits)
  have hashes := decodeUint_at atFilter
  have atBits := atFilter.after_number
  rw [← List.append_nil bits] at atBits
  have bitArray := bytesAt_at atBits
  rw [List.append_nil] at bitArray
  rw [← indexSize] at index hashes bitArray
  have fewer : footer.filterBlockSize - 1 = bits.length := by omega
  simp only [readBlocks, Nat.mod_eq_of_lt together, readBuffer_ok offset, buffer, index, bind, Except.bind, hashes, fewer,
    bitArray]
  rfl

/-- A reader is only made where index and filter fit the buffer together. -/
theorem readBlocks_fits {file : Bytes} {footer : SSTFooter} {reader : SSTableReader}
    (read : readBlocks file footer = .ok reader) (filter : 1 ≤ footer.filterBlockSize) :
    footer.indexBlockSize + footer.filterBlockSize < 2 ^ 32 := by
  obtain ⟨buffer, answer, read⟩ := exists_of_bind_ok read
  obtain ⟨⟨entries, last⟩, index, read⟩ := exists_of_bind_ok read
  obtain ⟨numHashes, _, read⟩ := exists_of_bind_ok read
  obtain ⟨bitArray, bits, _⟩ := exists_of_bind_ok read
  have passed := readIndex_passed (by omega) index
  have inside := bytesAt_inside bits
  rw [readBuffer_eq answer, length_readInto] at inside
  have bound := Nat.mod_lt (footer.indexBlockSize + footer.filterBlockSize) (Nat.two_pow_pos 32)
  omega

end

section

variable (sizing : BloomFilter.Sizing) (estimatedKeys : Nat) (entries : List Entry)

/-- Opening a written table comes down to its index and filter. -/
theorem create_tableFile : create (tableFile sizing estimatedKeys entries) =
    if ((BloomFilter.new sizing estimatedKeys).sizeBytes + 1) % 2 ^ 32 < 2 then
      .error ⟨.badConfig, "invalid filter block size"⟩
    else readBlocks (tableFile sizing estimatedKeys entries) (loadedWriter sizing estimatedKeys entries).footer.stored := by
  let writer := loadedWriter sizing estimatedKeys entries
  have layout := tableFile_eq sizing estimatedKeys entries
  simp only [← List.append_assoc] at layout
  have here := ByteBuffer.at_append (((blocksOf entries).map blockBytes).flatten ++ writer.indexBlock ++
    writer.filterBlock) (encodeFooter writer.footer)
  rw [← layout] at here
  have length := here.length
  rw [length_encodeFooter] at length
  have large : ¬ (tableFile sizing estimatedKeys entries).length < footerSize := by omega
  have start : (tableFile sizing estimatedKeys entries).length - footerSize =
      (((blocksOf entries).map blockBytes).flatten ++ writer.indexBlock ++ writer.filterBlock).length := by omega
  have last : readInto [] (tableFile sizing estimatedKeys entries) footerSize
      ((tableFile sizing estimatedKeys entries).length - footerSize) = encodeFooter writer.footer := by
    rw [start, ← length_encodeFooter writer.footer]
    have whole := here
    rw [← List.append_nil (encodeFooter writer.footer)] at whole
    exact readInto_at [] whole
  have filter : writer.footer.filterBlockSize = (BloomFilter.new sizing estimatedKeys).sizeBytes + 1 :=
    length_filterBlock sizing estimatedKeys entries
  rw [create, if_neg large, last, readFooter_encodeFooter, filter]
  split
  · rfl
  · rfl

variable {sizing estimatedKeys entries}

/-- What the reader makes of a table whose index and filter fit its 32-bit sizes
together. -/
theorem create_written (data : dataSize (blocksOf entries) < 2 ^ 63)
    (filter : 2 ≤ ((BloomFilter.new sizing estimatedKeys).sizeBytes + 1) % 2 ^ 32)
    (together : (loadedWriter sizing estimatedKeys entries).indexBlock.length +
      ((BloomFilter.new sizing estimatedKeys).sizeBytes + 1) % 2 ^ 32 < 2 ^ 32) :
    create (tableFile sizing estimatedKeys entries) = .ok {
      file := tableFile sizing estimatedKeys entries
      indexEntries := (indexOf 0 (blocksOf entries)).map .stored
      bloomFilter := .ofBytes ((loadedWriter sizing estimatedKeys entries).bloomFilter.bitArray.take
        (((BloomFilter.new sizing estimatedKeys).sizeBytes + 1) % 2 ^ 32 - 1))
        ((loadedWriter sizing estimatedKeys entries).bloomFilter.numHashes % 2 ^ 8)
      footer := (loadedWriter sizing estimatedKeys entries).footer.stored } := by
  have flushed := loadedWriter_flushed sizing estimatedKeys entries
  have layout := tableFile_eq sizing estimatedKeys entries
  have filterLength := length_filterBlock sizing estimatedKeys entries
  rw [create_tableFile, if_neg (by omega)]
  generalize loadedWriter sizing estimatedKeys entries = writer at *
  generalize (BloomFilter.new sizing estimatedKeys).sizeBytes + 1 = filterBytes at *
  -- what the size field leaves of the filter
  have keptBound : filterBytes % 2 ^ 32 ≤ filterBytes := Nat.mod_le _ _
  have bits : (writer.bloomFilter.bitArray.take (filterBytes % 2 ^ 32 - 1)).length = filterBytes % 2 ^ 32 - 1 := by
    rw [SSTableWriter.filterBlock, List.length_append, ByteBuffer.length_encode] at filterLength
    rw [List.length_take]
    omega
  have split : writer.indexBlock ++ (writer.filterBlock ++ encodeFooter writer.footer) =
      (writer.indexEntries.flatMap encodeIndexEntry ++ (encodeUint8 writer.bloomFilter.numHashes ++
        writer.bloomFilter.bitArray.take (filterBytes % 2 ^ 32 - 1))) ++
        (writer.bloomFilter.bitArray.drop (filterBytes % 2 ^ 32 - 1) ++ encodeFooter writer.footer) := by
    simp only [SSTableWriter.indexBlock, SSTableWriter.filterBlock, List.append_assoc]
    rw [← List.append_assoc (writer.bloomFilter.bitArray.take _), List.take_append_drop]
  have here := ByteBuffer.at_append ((blocksOf entries).map blockBytes).flatten (writer.indexBlock ++
    (writer.filterBlock ++ encodeFooter writer.footer))
  rw [← layout, length_dataBytes, ← flushed.offset, split] at here
  have indexSize : writer.footer.stored.indexBlockSize = writer.indexBlock.length := Nat.mod_eq_of_lt (by
    have short : writer.indexBlock.length < 2 ^ 32 := by omega
    exact short)
  have filterSize : writer.footer.stored.filterBlockSize = filterBytes % 2 ^ 32 := congrArg (· % 2 ^ 32) filterLength
  have indexOffset : writer.footer.stored.indexBlockOffset = writer.currentFileOffset := by
    rw [← flushed.offset] at data
    exact Nat.mod_eq_of_lt (data.trans (by decide))
  have offset : writer.footer.stored.indexBlockOffset < 2 ^ 63 := by
    rw [indexOffset, flushed.offset]
    exact data
  rw [← indexOffset] at here
  rw [readBlocks_at here indexSize (by rw [filterSize, bits]; omega) (by rw [indexSize, filterSize]; exact together) offset,
    flushed.index]

end

end SSTableReader

end Enigma
