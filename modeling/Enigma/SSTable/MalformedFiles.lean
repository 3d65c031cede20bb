import Enigma.SSTable.Iterator

/-! Reading whatever bytes stand in a table's file. Every read of a block is held
against the block's size first; only the sizes of index and filter, added in 32 bits,
can be larger than the buffer that they are read into. -/

namespace Enigma

/-- No read went past the end of its buffer. -/
def StaysInBounds {α : Type} (result : Except Error α) : Prop := result ≠ .error overrun

namespace StaysInBounds

variable {α β : Type} {buffer : Bytes} {offset : Nat}

theorem ok (value : α) : StaysInBounds (.ok value : Except Error α) := nofun

theorem error {error : Error} (own : error ≠ overrun) : StaysInBounds (.error error : Except Error α) := by
  rintro ⟨⟩
  exact own rfl

theorem bind {first : Except Error α} {next : α → Except Error β} (inside : StaysInBounds first)
    (later : ∀ value, first = .ok value → StaysInBounds (next value)) : StaysInBounds (first >>= next) := by
  cases first with
  | error error => exact StaysInBounds.error fun same => inside (congrArg _ same)
  | ok value => exact later value rfl

theorem of_bind {first : Except Error α} {next : α → Except Error β} (inside : StaysInBounds (first >>= next)) :
    StaysInBounds first ∧ ∀ value, first = .ok value → StaysInBounds (next value) := by
  cases first with
  | error error => exact ⟨fun same => inside (by cases same; rfl), nofun⟩
  | ok value => exact ⟨.ok _, fun _ same => Except.ok.inj same ▸ inside⟩

theorem number {width : Nat} (inside : offset + width ≤ buffer.length) : StaysInBounds (decodeUint width buffer offset) := by
  rw [decodeUint_inside inside]
  exact .ok _

theorem bytes {length : Nat} (inside : offset + length ≤ buffer.length) : StaysInBounds (bytesAt buffer offset length) := by
  rw [bytesAt_within inside]
  exact .ok _

/-- Past the end there is no result. -/
theorem inside_of_number {width : Nat} (stays : StaysInBounds (decodeUint width buffer offset)) :
    offset + width ≤ buffer.length := by
  by_contra outside
  refine stays ?_
  simp only [decodeUint, ByteBuffer.number, ByteBuffer.slice, outside, ↓reduceIte]
  rfl

theorem inside_of_bytes {length : Nat} (stays : StaysInBounds (bytesAt buffer offset length)) :
    offset + length ≤ buffer.length := by
  by_contra outside
  refine stays ?_
  simp only [bytesAt, ByteBuffer.slice, outside, ↓reduceIte]
  rfl

end StaysInBounds

theorem readBuffer_inside (old file : Bytes) (count offset : Nat) : StaysInBounds (readBuffer old file count offset) := by
  rw [readBuffer]
  split
  · exact .error (by decide)
  · exact .ok _

namespace SSTableReader

theorem readFooter_inside {buffer : Bytes} (length : buffer.length = footerSize) : StaysInBounds (readFooter buffer) := by
  have size : footerSize = 64 := rfl
  have place : footerChecksumOffset = 46 := rfl
  rw [readFooter]
  split
  · exact .error (by decide)
  · refine .bind (.number (by omega)) fun storedChecksum _ => ?_
    split
    · exact .error (by decide)
    · refine .bind (.number (by omega)) fun _ _ => .bind (.number (by omega)) fun _ _ => .bind (.number (by omega))
        fun _ _ => .bind (.number (by omega)) fun _ _ => ?_
      split
      · exact .error (by decide)
      · exact .bind (.number (by omega)) fun _ _ => .bind (.number (by omega)) fun _ _ => .bind (.number (by omega))
          fun _ _ => .bind (.number (by omega)) fun _ _ => .ok _

/-- Searching a block stays in it, whatever stands there. -/
theorem searchBlock_inside {buffer : Bytes} {blockSize : Nat} (size : blockSize ≤ buffer.length) (key : Key)
    (remaining offset : Nat) : StaysInBounds (searchBlock buffer blockSize key remaining offset) := by
  induction remaining generalizing offset with
  | zero => exact .ok _
  | succ remaining ih =>
    rw [searchBlock]
    split
    · split
      · exact .error (by decide)
      · refine .bind (.number (by omega)) fun keyLen _ => ?_
        split
        · exact .error (by decide)
        · refine .bind (.bytes (by omega)) fun entryKey _ => ?_
          split
          · exact .error (by decide)
          · refine .bind (.number (by omega)) fun valueLen _ => ?_
            simp only
            split
            · exact .error (by decide)
            · split
              · refine .bind (.bytes (by omega)) fun data _ => ?_
                split
                · exact .error (by decide)
                · refine .bind (.number (by omega)) fun tombstone _ => ?_
                  split
                  · exact .error (by decide)
                  · exact .bind (.number (by omega)) fun _ _ => .ok _
              · split
                · exact .ok _
                · split
                  · exact .error (by decide)
                  · exact ih _
    · exact .ok _

/-- Every round of the search passes some bytes, so it ends by itself. -/
theorem searchBlock_ends {buffer : Bytes} {blockSize : Nat} (key : Key) {remaining offset : Nat}
    (enough : blockSize ≤ offset + remaining) (more : Nat) :
    searchBlock buffer blockSize key (remaining + more) offset = searchBlock buffer blockSize key remaining offset := by
  induction remaining generalizing offset with
  | zero =>
    rw [Nat.zero_add, searchBlock]
    cases more with
    | zero => rfl
    | succ more => rw [searchBlock, if_neg (by omega)]
  | succ remaining ih =>
    have next : ∀ keyLen valueLen, searchBlock buffer blockSize key (remaining + more) (offset + 4 + keyLen + 4 + valueLen + 9) =
        searchBlock buffer blockSize key remaining (offset + 4 + keyLen + 4 + valueLen + 9) :=
      fun keyLen valueLen => ih (by omega)
    rw [Nat.add_right_comm, searchBlock, searchBlock]
    simp only [next]

section

variable {buffer : Bytes} {indexBlockSize offset : Nat}

theorem readIndex_ends {remaining : Nat} (enough : indexBlockSize ≤ offset + remaining) (more : Nat) :
    readIndex buffer indexBlockSize (remaining + more) offset = readIndex buffer indexBlockSize remaining offset := by
  induction remaining generalizing offset with
  | zero =>
    rw [Nat.zero_add, readIndex]
    cases more with
    | zero => rfl
    | succ more => rw [readIndex, if_neg (by omega)]
  | succ remaining ih =>
    have next : ∀ keyLen, readIndex buffer indexBlockSize (remaining + more) (offset + 4 + keyLen + 8 + 4) =
        readIndex buffer indexBlockSize remaining (offset + 4 + keyLen + 8 + 4) := fun keyLen => ih (by omega)
    rw [Nat.add_right_comm, readIndex, readIndex]
    simp only [next]

/-- An index that the buffer holds is read in it, and up to its end. -/
theorem readIndex_inside (size : indexBlockSize ≤ buffer.length) (remaining : Nat) :
    StaysInBounds (readIndex buffer indexBlockSize remaining offset) := by
  induction remaining generalizing offset with
  | zero => exact .ok _
  | succ remaining ih =>
    rw [readIndex]
    split
    · split
      · exact .error (by decide)
      · refine .bind (.number (by omega)) fun keyLen _ => ?_
        split
        · exact .error (by decide)
        · exact .bind (.bytes (by omega)) fun _ _ => .bind (.number (by omega)) fun _ _ => .bind (.number (by omega))
            fun _ _ => .bind ih fun _ _ => .ok _
    · exact .ok _

theorem readIndex_last {remaining last : Nat} {entries : List IndexEntry} (started : offset ≤ indexBlockSize)
    (read : readIndex buffer indexBlockSize remaining offset = .ok (entries, last)) : last ≤ indexBlockSize := by
  induction remaining generalizing offset entries with
  | zero =>
    cases read
    exact started
  | succ remaining ih =>
    rw [readIndex] at read
    split at read
    · split at read
      · cases read
      · obtain ⟨keyLen, _, read⟩ := exists_of_bind_ok read
        split at read
        · cases read
        · obtain ⟨firstKey, _, read⟩ := exists_of_bind_ok read
          obtain ⟨blockOffset, _, read⟩ := exists_of_bind_ok read
          obtain ⟨blockSize, _, read⟩ := exists_of_bind_ok read
          obtain ⟨⟨rest, behind⟩, later, read⟩ := exists_of_bind_ok read
          cases read
          exact ih (by omega) later
    · cases read
      exact started

/-- An index that is refused by its own sizes before a read leaves the buffer: after
entries that the buffer holds comes one that does not fit the index. -/
inductive IndexRefused (buffer : Bytes) (indexBlockSize : Nat) : Nat → Prop
  | cut {offset : Nat} (short : indexBlockSize < offset + 4) : IndexRefused buffer indexBlockSize offset
  | long {offset : Nat} (held : offset + 4 ≤ buffer.length)
      (long : indexBlockSize < offset + 16 + fieldAt buffer offset 4) : IndexRefused buffer indexBlockSize offset
  | later {offset : Nat} (held : offset + 16 + fieldAt buffer offset 4 ≤ buffer.length)
      (later : IndexRefused buffer indexBlockSize (offset + 16 + fieldAt buffer offset 4)) :
      IndexRefused buffer indexBlockSize offset

/-- With a buffer smaller than the index there are no other ways out. -/
theorem indexRefused_of_readIndex (small : buffer.length < indexBlockSize) {remaining : Nat} (started : offset ≤ buffer.length)
    (enough : indexBlockSize ≤ offset + remaining)
    (stays : StaysInBounds (readIndex buffer indexBlockSize remaining offset)) :
    IndexRefused buffer indexBlockSize offset := by
  induction remaining generalizing offset with
  | zero => omega
  | succ remaining ih =>
    rw [readIndex, if_pos (by omega)] at stays
    by_cases short : indexBlockSize < offset + 4
    · exact .cut short
    · rw [if_neg short] at stays
      obtain ⟨field, stays⟩ := stays.of_bind
      have held := field.inside_of_number
      have stays := stays _ (decodeUint_inside held)
      by_cases long : indexBlockSize < offset + 4 + fieldAt buffer offset 4 + 8 + 4
      · exact .long held (by omega)
      · rw [if_neg long] at stays
        obtain ⟨key, stays⟩ := stays.of_bind
        obtain ⟨place, stays⟩ := (stays _ (bytesAt_within key.inside_of_bytes)).of_bind
        obtain ⟨size, stays⟩ := (stays _ (decodeUint_inside place.inside_of_number)).of_bind
        obtain ⟨rest, _⟩ := (stays _ (decodeUint_inside size.inside_of_number)).of_bind
        have entry := size.inside_of_number
        rw [show offset + 4 + fieldAt buffer offset 4 + 8 + 4 = offset + 16 + fieldAt buffer offset 4 by omega] at rest entry
        exact .later entry (ih entry (by omega) rest)

/-- A refused index ends in an error of the code. -/
theorem readIndex_refused (refused : IndexRefused buffer indexBlockSize offset) {remaining : Nat}
    (started : offset < indexBlockSize) (small : buffer.length < indexBlockSize)
    (enough : indexBlockSize ≤ offset + remaining) :
    ∃ error, error ≠ overrun ∧ readIndex buffer indexBlockSize remaining offset = .error error := by
  induction refused generalizing remaining with
  | cut short =>
    obtain ⟨fewer, rfl⟩ : ∃ fewer, remaining = fewer + 1 := ⟨remaining - 1, by omega⟩
    rw [readIndex, if_pos started, if_pos short]
    exact ⟨_, by decide, rfl⟩
  | @long offset held long =>
    obtain ⟨fewer, rfl⟩ : ∃ fewer, remaining = fewer + 1 := ⟨remaining - 1, by omega⟩
    rw [readIndex, if_pos started]
    by_cases short : indexBlockSize < offset + 4
    · rw [if_pos short]
      exact ⟨_, by decide, rfl⟩
    · rw [if_neg short, decodeUint32, decodeUint_inside held]
      refine ⟨_, ?_, if_pos (by omega)⟩
      decide
  | @later offset held _ ih =>
    obtain ⟨fewer, rfl⟩ : ∃ fewer, remaining = fewer + 1 := ⟨remaining - 1, by omega⟩
    have left : indexBlockSize ≤ offset + 16 + fieldAt buffer offset 4 + fewer := by omega
    obtain ⟨error, own, failed⟩ := ih (by omega) left
    have short : ¬ indexBlockSize < offset + 4 := by omega
    have long : ¬ indexBlockSize < offset + 4 + fieldAt buffer offset 4 + 8 + 4 := by omega
    have field : decodeUint 4 buffer offset = .ok (fieldAt buffer offset 4) := decodeUint_inside (by omega)
    have key := bytesAt_within (show offset + 4 + fieldAt buffer offset 4 ≤ buffer.length by omega)
    have place := decodeUint_inside (show offset + 4 + fieldAt buffer offset 4 + 8 ≤ buffer.length by omega)
    have size := decodeUint_inside (show offset + 4 + fieldAt buffer offset 4 + 8 + 4 ≤ buffer.length by omega)
    rw [show offset + 16 + fieldAt buffer offset 4 = offset + 4 + fieldAt buffer offset 4 + 8 + 4 by omega] at failed
    refine ⟨error, own, ?_⟩
    simp only [readIndex, started, short, field, long, key, place, size, failed, bind, Except.bind, ↓reduceIte]

end

section

variable {file : Bytes} {footer : SSTFooter}

/-- The sizes in a footer are 32-bit numbers, and a filter has a byte at least. -/
theorem readFooter_sizes {buffer : Bytes} (length : buffer.length = footerSize) (read : readFooter buffer = .ok footer) :
    footer.indexBlockSize < 2 ^ 32 ∧ footer.filterBlockSize < 2 ^ 32 ∧ 2 ≤ footer.filterBlockSize := by
  have size : footerSize = 64 := rfl
  rw [readFooter] at read
  split at read
  · cases read
  · obtain ⟨storedChecksum, _, read⟩ := exists_of_bind_ok read
    split at read
    · cases read
    · obtain ⟨indexBlockOffset, _, read⟩ := exists_of_bind_ok read
      obtain ⟨indexBlockSize, index, read⟩ := exists_of_bind_ok read
      obtain ⟨filterBlockOffset, _, read⟩ := exists_of_bind_ok read
      obtain ⟨filterBlockSize, filter, read⟩ := exists_of_bind_ok read
      split at read
      · cases read
      · rename_i large
        obtain ⟨entryCount, _, read⟩ := exists_of_bind_ok read
        obtain ⟨formatVersion, _, read⟩ := exists_of_bind_ok read
        obtain ⟨highestSequence, _, read⟩ := exists_of_bind_ok read
        obtain ⟨sizeBytes, _, read⟩ := exists_of_bind_ok read
        cases read
        rw [decodeUint32, decodeUint_inside (by omega)] at index filter
        cases index
        cases filter
        exact ⟨fieldAt_lt _ _ _, fieldAt_lt _ _ _, not_lt.mp large⟩

/-- The buffer for index and filter. -/
def blocksBuffer (file : Bytes) (footer : SSTFooter) : Bytes :=
  readInto [] file ((footer.indexBlockSize + footer.filterBlockSize) % 2 ^ 32) footer.indexBlockOffset

theorem length_blocksBuffer (file : Bytes) (footer : SSTFooter) :
    (blocksBuffer file footer).length = (footer.indexBlockSize + footer.filterBlockSize) % 2 ^ 32 := length_readInto ..

/-- The read of index and filter asks for a byte at an offset that is negative. -/
def OffsetRefused (footer : SSTFooter) : Prop :=
  (footer.indexBlockSize + footer.filterBlockSize) % 2 ^ 32 ≠ 0 ∧ 2 ^ 63 ≤ footer.indexBlockOffset

theorem readBlocks_inside_iff (index : footer.indexBlockSize < 2 ^ 32) (filter : footer.filterBlockSize < 2 ^ 32)
    (large : 2 ≤ footer.filterBlockSize) :
    StaysInBounds (readBlocks file footer) ↔ footer.indexBlockSize + footer.filterBlockSize < 2 ^ 32 ∨
      OffsetRefused footer ∨ IndexRefused (blocksBuffer file footer) footer.indexBlockSize 0 := by
  have length := length_blocksBuffer file footer
  by_cases negative : OffsetRefused footer
  · have refused : readBuffer [] file ((footer.indexBlockSize + footer.filterBlockSize) % 2 ^ 32) footer.indexBlockOffset =
        .error negativeOffset := if_pos negative
    rw [readBlocks, refused]
    exact ⟨fun _ => .inr (.inl negative), fun _ => .error (by decide)⟩
  · have read : readBuffer [] file ((footer.indexBlockSize + footer.filterBlockSize) % 2 ^ 32) footer.indexBlockOffset =
        .ok (blocksBuffer file footer) := if_neg negative
    rw [readBlocks, read, or_iff_right negative]
    change StaysInBounds (readIndex (blocksBuffer file footer) footer.indexBlockSize footer.indexBlockSize 0 >>= _) ↔ _
    by_cases together : footer.indexBlockSize + footer.filterBlockSize < 2 ^ 32
    · rw [Nat.mod_eq_of_lt together] at length
      refine ⟨fun _ => .inl together, fun _ => .bind (readIndex_inside (by omega) _) ?_⟩
      rintro ⟨entries, last⟩ read
      have ends := readIndex_last (Nat.zero_le _) read
      exact .bind (.number (by omega)) fun _ _ => .bind (.bytes (by omega)) fun _ _ => .ok _
    · have small : (blocksBuffer file footer).length < footer.indexBlockSize := by omega
      rw [or_iff_right together]
      constructor
      · intro stays
        exact indexRefused_of_readIndex small (Nat.zero_le _) (by omega) stays.of_bind.1
      · intro refused
        obtain ⟨error, own, failed⟩ := readIndex_refused refused (by omega) small (Nat.zero_add _).ge
        rw [failed]
        exact .error own

/-- The footer of a file that is large enough for one. -/
def footerOf (file : Bytes) : Except Error SSTFooter :=
  readFooter (readInto [] file footerSize (file.length - footerSize))

/-- The files whose index and filter are read in their buffer: the footer is refused, or
their sizes add up in 32 bits, or the read is refused, or the index is refused in time. -/
def SizesHold (file : Bytes) : Prop :=
  footerSize ≤ file.length → ∀ footer, footerOf file = .ok footer →
    footer.indexBlockSize + footer.filterBlockSize < 2 ^ 32 ∨ OffsetRefused footer ∨
      IndexRefused (blocksBuffer file footer) footer.indexBlockSize 0

theorem create_inside_iff (file : Bytes) : StaysInBounds (create file) ↔ SizesHold file := by
  rw [create, SizesHold]
  by_cases small : file.length < footerSize
  · rw [if_pos small]
    exact ⟨fun _ large => absurd large (not_le.mpr small), fun _ => .error (by decide)⟩
  · rw [if_neg small, ← footerOf]
    have inside : StaysInBounds (footerOf file) := readFooter_inside (length_readInto ..)
    have sizes : ∀ footer, footerOf file = .ok footer → (StaysInBounds (readBlocks file footer) ↔
        footer.indexBlockSize + footer.filterBlockSize < 2 ^ 32 ∨ OffsetRefused footer ∨
          IndexRefused (blocksBuffer file footer) footer.indexBlockSize 0) := by
      intro footer read
      obtain ⟨index, filter, large⟩ := readFooter_sizes (length_readInto ..) read
      exact readBlocks_inside_iff index filter large
    constructor
    · intro stays _ footer read
      exact (sizes footer read).mp (stays.of_bind.2 footer read)
    · intro holds
      exact .bind inside fun footer read => (sizes footer read).mpr (holds (not_lt.mp small) footer read)

end

end SSTableReader

namespace SSTableIterator

/-- Decoding an entry stays in its block, and passes some bytes of it. -/
theorem readEntry_inside {buffer : Bytes} {blockSize : Nat} (size : blockSize ≤ buffer.length) (offset : Nat) :
    StaysInBounds (readEntry buffer blockSize offset) := by
  rw [readEntry]
  split
  · exact .error (by decide)
  · refine .bind (.number (by omega)) fun keyLen _ => ?_
    split
    · exact .error (by decide)
    · refine .bind (.bytes (by omega)) fun key _ => ?_
      split
      · exact .error (by decide)
      · refine .bind (.number (by omega)) fun valueLen _ => ?_
        simp only
        split
        · exact .error (by decide)
        · refine .bind (.bytes (by omega)) fun data _ => ?_
          split
          · exact .error (by decide)
          · refine .bind (.number (by omega)) fun tombstone _ => ?_
            split
            · exact .error (by decide)
            · exact .bind (.number (by omega)) fun _ _ => .ok _

theorem readEntry_advances {buffer : Bytes} {blockSize offset behind : Nat} {entry : Entry}
    (read : readEntry buffer blockSize offset = .ok (entry, behind)) : offset < behind ∧ behind ≤ blockSize := by
  rw [readEntry] at read
  split at read
  · cases read
  · obtain ⟨keyLen, _, read⟩ := exists_of_bind_ok read
    split at read
    · cases read
    · obtain ⟨key, _, read⟩ := exists_of_bind_ok read
      split at read
      · cases read
      · obtain ⟨valueLen, _, read⟩ := exists_of_bind_ok read
        simp only at read
        split at read
        · cases read
        · obtain ⟨data, _, read⟩ := exists_of_bind_ok read
          split at read
          · cases read
          · obtain ⟨tombstone, _, read⟩ := exists_of_bind_ok read
            split at read
            · cases read
            · obtain ⟨sequence, _, read⟩ := exists_of_bind_ok read
              cases read
              omega

section

variable {reader : SSTableReader} {failure : Nat → Option Error} {iterator : SSTableIterator}

/-- An iterator in a block that it has loaded. -/
structure Loaded (reader : SSTableReader) (iterator : SSTableIterator) : Prop where
  block : iterator.currentBlockIdx < reader.indexEntries.length
  buffer : iterator.blockBuffer.length = (iterator.currentBlock reader).blockSize
  offset : iterator.blockOffset ≤ (iterator.currentBlock reader).blockSize
  calm : iterator.error = none

/-- No read has gone wrong, and a valid iterator stands in a block. -/
structure Placed (reader : SSTableReader) (iterator : SSTableIterator) : Prop where
  error : iterator.error ≠ some overrun
  loaded : iterator.valid = true → Loaded reader iterator

/-- The bytes of the table that are left. -/
def bytesLeft (reader : SSTableReader) (iterator : SSTableIterator) : Nat :=
  ((reader.indexEntries.drop iterator.currentBlockIdx).map IndexEntry.blockSize).sum - iterator.blockOffset

theorem bytesLeft_eq (loaded : Loaded reader iterator) : bytesLeft reader iterator =
    (iterator.currentBlock reader).blockSize - iterator.blockOffset +
      ((reader.indexEntries.drop (iterator.currentBlockIdx + 1)).map IndexEntry.blockSize).sum := by
  have offset := loaded.offset
  rw [bytesLeft, List.drop_eq_getElem_cons loaded.block, List.map_cons, List.sum_cons]
  rw [currentBlock, List.getD_eq_getElem?_getD, List.getElem?_eq_getElem loaded.block, Option.getD_some] at offset ⊢
  omega

/-- Decoding in a block. -/
theorem decodeNext_placed (loaded : Loaded reader iterator) :
    Placed reader (iterator.decodeNext reader) ∧
      ((iterator.decodeNext reader).valid = true → bytesLeft reader (iterator.decodeNext reader) < bytesLeft reader iterator) := by
  rw [decodeNext]
  split
  · exact ⟨⟨by simp [loaded.calm], fun valid => by cases valid⟩, fun valid => by cases valid⟩
  · have inside := readEntry_inside loaded.buffer.ge iterator.blockOffset
    cases read : readEntry iterator.blockBuffer (iterator.currentBlock reader).blockSize iterator.blockOffset with
    | error error =>
      refine ⟨⟨?_, fun valid => by cases valid⟩, fun valid => by cases valid⟩
      intro same
      rw [read, Option.some.inj same] at inside
      exact inside rfl
    | ok result =>
      obtain ⟨entry, behind⟩ := result
      obtain ⟨further, limit⟩ := readEntry_advances read
      have moved : Loaded reader { iterator with current := entry, blockOffset := behind, valid := true } :=
        ⟨loaded.block, loaded.buffer, limit, loaded.calm⟩
      refine ⟨⟨by simp [loaded.calm], fun _ => moved⟩, fun _ => ?_⟩
      rw [bytesLeft_eq moved, bytesLeft_eq loaded]
      change (iterator.currentBlock reader).blockSize - behind + _ < _
      exact Nat.add_lt_add_right (by omega) _

/-- A block that is loaded. -/
theorem loadBlock_placed (iterator : SSTableIterator) (own : ∀ block, failure block ≠ some overrun) (calm : iterator.error = none)
    (block : iterator.currentBlockIdx < reader.indexEntries.length) :
    (∃ failed, iterator.loadBlock reader failure = (failed, false) ∧ failed.valid = false ∧ failed.error ≠ some overrun) ∨
      ∃ loaded, iterator.loadBlock reader failure = (loaded, true) ∧ Loaded reader loaded ∧ loaded.blockOffset = 0 ∧
        loaded.currentBlockIdx = iterator.currentBlockIdx := by
  rw [loadBlock]
  cases reading : failure iterator.currentBlockIdx with
  | some error => exact .inl ⟨_, rfl, rfl, fun same => own _ (reading.trans same)⟩
  | none =>
    simp only
    cases read : readBuffer iterator.blockBuffer reader.file (iterator.currentBlock reader).blockSize
        (iterator.currentBlock reader).blockOffset with
    | error error =>
      have inside := readBuffer_inside iterator.blockBuffer reader.file (iterator.currentBlock reader).blockSize
        (iterator.currentBlock reader).blockOffset
      refine .inl ⟨_, rfl, rfl, fun same => inside ?_⟩
      rw [read, Option.some.inj same]
    | ok blockBuffer =>
      exact .inr ⟨_, rfl, ⟨block, length_readBuffer read, Nat.zero_le _, calm⟩, rfl, rfl⟩

/-- One step from a block. -/
theorem next_placed (own : ∀ block, failure block ≠ some overrun) (loaded : Loaded reader iterator) :
    Placed reader (iterator.next reader failure) ∧
      ((iterator.next reader failure).valid = true →
        bytesLeft reader (iterator.next reader failure) < bytesLeft reader iterator) := by
  rw [next, if_neg (by simp [loaded.calm])]
  split
  · simp only
    split
    · exact ⟨⟨by simp [loaded.calm], fun valid => by cases valid⟩, fun valid => by cases valid⟩
    · rename_i further
      have total := bytesLeft_eq loaded
      rcases loadBlock_placed { iterator with currentBlockIdx := iterator.currentBlockIdx + 1 } own loaded.calm
          (not_le.mp further) with ⟨failed, load, invalid, error⟩ | ⟨fresh, load, held, start, index⟩
      · rw [load]
        exact ⟨⟨error, fun valid => by rw [invalid] at valid; cases valid⟩, fun valid => by rw [invalid] at valid; cases valid⟩
      · rw [load]
        obtain ⟨placed, less⟩ := decodeNext_placed held
        refine ⟨placed, fun valid => (less valid).trans_le ?_⟩
        simp only at index
        rw [total, bytesLeft, start, index]
        omega
  · exact decodeNext_placed loaded

theorem seekToFirst_placed (own : ∀ block, failure block ≠ some overrun) :
    Placed reader (new.seekToFirst reader failure) ∧
      ((new.seekToFirst reader failure).valid = true → bytesLeft reader (new.seekToFirst reader failure) <
        (reader.indexEntries.map IndexEntry.blockSize).sum) := by
  by_cases none : reader.indexEntries = []
  · have empty : new.seekToFirst reader failure = new := if_pos none
    rw [empty]
    exact ⟨⟨(fun failed => by cases failed), fun valid => by cases valid⟩, fun valid => by cases valid⟩
  · rcases loadBlock_placed new own rfl (List.length_pos_iff.mpr none) with
      ⟨failed, load, invalid, error⟩ | ⟨fresh, load, held, start, index⟩
    · have stopped : new.seekToFirst reader failure = failed := by
        rw [seekToFirst, if_neg none]
        split
        · rename_i found
          exact (Prod.mk.inj (found.symm.trans load)).1
        · rename_i found
          cases (Prod.mk.inj (found.symm.trans load)).2
      rw [stopped]
      exact ⟨⟨error, fun valid => by rw [invalid] at valid; cases valid⟩, fun valid => by rw [invalid] at valid; cases valid⟩
    · have moved : new.seekToFirst reader failure = fresh.next reader failure := by
        rw [seekToFirst, if_neg none]
        split
        · rename_i found
          cases (Prod.mk.inj (found.symm.trans load)).2
        · rename_i found
          rw [(Prod.mk.inj (found.symm.trans load)).1]
      obtain ⟨placed, less⟩ := next_placed own held
      rw [moved]
      refine ⟨placed, fun valid => (less valid).trans_le ?_⟩
      rw [bytesLeft, start, index]
      exact le_rfl

/-- A scan from some place comes to an end. -/
theorem scan_ends_from (own : ∀ block, failure block ≠ some overrun) (placed : Placed reader iterator) :
    ∃ count, (∀ earlier < count, ((next reader failure)^[earlier] iterator).valid = true) ∧
      ((next reader failure)^[count] iterator).valid = false ∧
      ∀ step ≤ count, Placed reader ((next reader failure)^[step] iterator) := by
  induction left : bytesLeft reader iterator using Nat.strong_induction_on generalizing iterator with
  | _ left ih =>
    cases valid : iterator.valid with
    | false =>
      refine ⟨0, nofun, valid, fun step none => ?_⟩
      cases Nat.le_zero.mp none
      exact placed
    | true =>
      obtain ⟨further, less⟩ := next_placed own (placed.loaded valid)
      by_cases ends : (iterator.next reader failure).valid = true
      · obtain ⟨count, earlier, last, steps⟩ := ih _ (left ▸ less ends) further rfl
        refine ⟨count + 1, ?_, last, ?_⟩
        · intro step before
          cases step with
          | zero => exact valid
          | succ step => exact earlier step (by omega)
        · intro step within
          cases step with
          | zero => exact placed
          | succ step => exact steps step (by omega)
      · refine ⟨1, ?_, Bool.not_eq_true _ ▸ ends, ?_⟩
        · intro step before
          cases Nat.lt_one_iff.mp before
          exact valid
        · intro step within
          cases step with
          | zero => exact placed
          | succ step =>
            cases Nat.le_zero.mp (Nat.le_of_succ_le_succ within)
            exact further

end

end SSTableIterator

section

variable {file : Bytes} {reader : SSTableReader}

/-- A filter that was read has bits to count by, and keeps to them. -/
theorem create_filter (created : SSTableReader.create file = .ok reader) :
    reader.bloomFilter.bitCount ≠ 0 ∧
      ∀ key round, reader.bloomFilter.bitPos key round / 8 < reader.bloomFilter.bitArray.length := by
  rw [SSTableReader.create] at created
  split at created
  · cases created
  · obtain ⟨footer, read, blocks⟩ := exists_of_bind_ok created
    obtain ⟨_, _, large⟩ := SSTableReader.readFooter_sizes (length_readInto ..) read
    obtain ⟨buffer, _, blocks⟩ := exists_of_bind_ok blocks
    obtain ⟨⟨entries, last⟩, _, blocks⟩ := exists_of_bind_ok blocks
    obtain ⟨numHashes, _, blocks⟩ := exists_of_bind_ok blocks
    obtain ⟨bitArray, bits, blocks⟩ := exists_of_bind_ok blocks
    cases blocks
    have inside := bytesAt_inside bits
    rw [bytesAt_within inside] at bits
    have length : bitArray.length = footer.filterBlockSize - 1 := by
      rw [← Except.ok.inj bits, List.length_take, List.length_drop]
      omega
    have count : (BloomFilter.ofBytes bitArray numHashes).bitCount = bitArray.length * 8 := rfl
    refine ⟨by simp only; omega, fun key round => ?_⟩
    have below : (BloomFilter.ofBytes bitArray numHashes).bitPos key round < bitArray.length * 8 :=
      Nat.mod_lt _ (by omega)
    change (BloomFilter.ofBytes bitArray numHashes).bitPos key round / 8 < bitArray.length
    omega

theorem get_inside (reader : SSTableReader) (key : Key) : StaysInBounds (reader.get key) := by
  rw [SSTableReader.get]
  split
  · exact .ok _
  · split
    · exact .ok _
    · refine .bind (readBuffer_inside _ _ _ _) fun blockBuffer read => ?_
      exact SSTableReader.searchBlock_inside (length_readBuffer read).ge key _ _

/-- Whatever stands in the file: opening it, looking keys up in the reader and scanning
it come to an end, with every read in its buffer and no division by zero. Which block a
lookup takes from an index that is not sorted is left open. -/
structure SafelyRead (file : Bytes) : Prop where
  opening : StaysInBounds (SSTableReader.create file)
  index : ∀ footer, SSTableReader.footerOf file = .ok footer → ∀ more,
    SSTableReader.readIndex (SSTableReader.blocksBuffer file footer) footer.indexBlockSize (footer.indexBlockSize + more) 0 =
      SSTableReader.readIndex (SSTableReader.blocksBuffer file footer) footer.indexBlockSize footer.indexBlockSize 0
  filter : ∀ reader, SSTableReader.create file = .ok reader → reader.bloomFilter.bitCount ≠ 0 ∧
    ∀ key round, reader.bloomFilter.bitPos key round / 8 < reader.bloomFilter.bitArray.length
  lookup : ∀ reader, SSTableReader.create file = .ok reader → ∀ key, StaysInBounds (reader.get key) ∧
    ∀ block ∈ reader.indexEntries, ∀ blockBuffer,
      readBuffer [] reader.file block.blockSize block.blockOffset = .ok blockBuffer → ∀ more,
        StaysInBounds (SSTableReader.searchBlock blockBuffer block.blockSize key block.blockSize 0) ∧
        SSTableReader.searchBlock blockBuffer block.blockSize key (block.blockSize + more) 0 =
          SSTableReader.searchBlock blockBuffer block.blockSize key block.blockSize 0
  scan : ∀ reader, SSTableReader.create file = .ok reader → ∀ failure : Nat → Option Error,
    (∀ block, failure block ≠ some overrun) → ∃ count,
      (∀ earlier < count,
        ((SSTableIterator.next reader failure)^[earlier] (SSTableIterator.new.seekToFirst reader failure)).valid = true) ∧
      ((SSTableIterator.next reader failure)^[count] (SSTableIterator.new.seekToFirst reader failure)).valid = false ∧
      ∀ step ≤ count, SSTableIterator.Placed reader
        ((SSTableIterator.next reader failure)^[step] (SSTableIterator.new.seekToFirst reader failure))

/-- Reading a file is safe exactly if its sizes hold what they say. -/
theorem safely_read_iff_sizes_hold (file : Bytes) : SafelyRead file ↔ SSTableReader.SizesHold file := by
  constructor
  · intro safe
    exact (SSTableReader.create_inside_iff file).mp safe.opening
  · intro holds
    exact {
      opening := (SSTableReader.create_inside_iff file).mpr holds
      index := fun _ _ more => SSTableReader.readIndex_ends (Nat.zero_add _).ge more
      filter := fun _ created => create_filter created
      lookup := fun reader _ key => ⟨get_inside reader key, fun _ _ _ read more =>
        ⟨SSTableReader.searchBlock_inside (length_readBuffer read).ge key _ _,
          SSTableReader.searchBlock_ends key (Nat.zero_add _).ge more⟩⟩
      scan := fun _ _ _ own => SSTableIterator.scan_ends_from own (SSTableIterator.seekToFirst_placed own).1 }

/-- A footer alone, whose index and filter have four gigabytes together. -/
def wrappingFile : Bytes := encodeFooter ⟨0, 2 ^ 32 - 2, 0, 2, 0, 1, 0, 64⟩

/-- Its index is looked for in a buffer of no bytes. -/
theorem not_safely_read : ¬ SafelyRead wrappingFile := by
  intro safe
  have size : wrappingFile.length = footerSize := length_encodeFooter _
  have whole : readInto [] wrappingFile footerSize (wrappingFile.length - footerSize) = wrappingFile := by
    have here : ByteBuffer.At wrappingFile 0 (wrappingFile ++ []) := by
      rw [List.append_nil]
      exact ByteBuffer.at_start _
    have read := readInto_at [] here
    rwa [size] at read
  have footer : SSTableReader.footerOf wrappingFile = .ok ⟨0, 2 ^ 32 - 2, 0, 2, 0, 1, 0, 64⟩ := by
    rw [SSTableReader.footerOf, whole, wrappingFile, SSTableReader.readFooter_encodeFooter]
    rfl
  have empty : (SSTableReader.blocksBuffer wrappingFile ⟨0, 2 ^ 32 - 2, 0, 2, 0, 1, 0, 64⟩).length = 0 :=
    SSTableReader.length_blocksBuffer _ _
  rcases (SSTableReader.create_inside_iff wrappingFile).mp safe.opening size.ge _ footer with together | negative | refused
  · exact absurd together (by decide)
  · exact absurd negative.2 (by decide)
  · cases refused with
    | cut short => exact absurd short (by decide)
    | long held => omega
    | later held => omega

end

end Enigma
