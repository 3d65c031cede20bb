import Enigma.SSTable.RoundTrip

/-! Writing a table and looking keys up in it. The index leads to the last block
that does not start above the key, and the search of the block stops at the first
larger key. An empty block in front does no harm here: it starts below every key. -/

namespace Enigma

namespace SSTableReader

/-- The search finds what the block holds under the key. -/
theorem searchBlock_at {buffer rest : Bytes} {offset size remaining : Nat} {block : List Entry} (key : Key)
    (here : ByteBuffer.At buffer offset (blockBytes block ++ rest)) (ends : size = offset + blockSize block)
    (fits : ∀ entry ∈ block, EntryFits entry) (ascending : Assoc.Ascending block) (enough : block.length ≤ remaining) :
    searchBlock buffer size key remaining offset = .ok (Assoc.find? block key) := by
  induction block generalizing offset remaining with
  | nil =>
    have past : ¬ offset < size := by simp [ends, blockSize]
    cases remaining with
    | zero => rfl
    | succ remaining => simp only [searchBlock, past, ↓reduceIte, Assoc.find?_nil]
  | cons entry later ih =>
    obtain ⟨remaining, rfl⟩ : ∃ fewer, remaining = fewer + 1 := ⟨remaining - 1, by simp at enough; omega⟩
    obtain ⟨name, data, isTombstone, sequence⟩ := entry
    have inside := fits (name, ⟨data, isTombstone, sequence⟩) (by simp)
    rw [blockSize_cons] at ends
    simp only [requiredSize] at ends
    rw [blockBytes, List.flatMap_cons, ← blockBytes] at here
    simp only [encodeEntry, List.append_assoc] at here
    have atKey := here.after_number
    have atValueLen := atKey.after
    have atValue := atValueLen.after_number
    have atTombstone := atValue.after
    have atSequence := atTombstone.after_number
    have atNext := atSequence.after_number
    have keyLen : decodeUint 4 buffer offset = .ok name.length :=
      (decodeUint_at here).trans (by rw [Nat.mod_eq_of_lt inside.key])
    have valueLen : decodeUint 4 buffer (offset + 4 + name.length) = .ok data.length :=
      (decodeUint_at atValueLen).trans (by rw [Nat.mod_eq_of_lt inside.data])
    have sequenceRead : decodeUint 8 buffer (offset + 4 + name.length + 4 + data.length + 1) = .ok sequence :=
      (decodeUint_at atSequence).trans (by rw [Nat.mod_eq_of_lt inside.sequence])
    have tombstone := decodeUint_at atTombstone
    have started : offset < size := by omega
    have keyLenInside : ¬ size < offset + 4 := by omega
    have keyInside : ¬ size < offset + 4 + name.length := by omega
    have valueLenInside : ¬ size < offset + 4 + name.length + 4 := by omega
    have valueInside : ¬ size < offset + 4 + name.length + 4 + data.length := by omega
    have tombstoneInside : ¬ size < offset + 4 + name.length + 4 + data.length + 1 := by omega
    have sequenceInside : ¬ size < offset + 4 + name.length + 4 + data.length + 1 + 8 := by omega
    have entryInside : ¬ size < offset + 4 + name.length + 4 + data.length + 9 := by omega
    obtain ⟨above, order⟩ := List.pairwise_cons.mp ascending
    simp only [searchBlock, started, keyLenInside, ↓reduceIte, keyLen, bind, Except.bind, keyInside, bytesAt_at atKey,
      valueLenInside, valueLen, valueInside]
    by_cases same : key = name
    · subst same
      simp only [↓reduceIte, bytesAt_at atValue, tombstoneInside, tombstone, sequenceInside, sequenceRead, Assoc.find?]
      cases isTombstone <;> rfl
    · have other : name ≠ key := Ne.symm same
      by_cases less : key < name
      · have missing : Assoc.find? later key = none :=
          Assoc.find?_eq_none_iff.mpr fun binding member => ne_of_gt (less.trans (above binding member))
        simp only [same, less, ↓reduceIte, Assoc.find?, other, missing]
      · simp only [same, less, ↓reduceIte, entryInside, Assoc.find?, other]
        refine ih atNext ?_ (fun entry member => fits entry (by simp [member])) order (by simpa using enough)
        omega

/-- What the search of the index finds: nothing when the first block starts above
the key, else the last block that does not. -/
theorem searchIndex_cases (blocks : List (List Entry)) (offset : Nat) (key : Key) :
    (((indexOf offset blocks).takeWhile fun entry => ¬ key < entry.firstKey).getLast? = none ∧
      ∀ block ∈ blocks.head?, key < leadKey block) ∨
    ∃ front block later, blocks = front ++ block :: later ∧
      ((indexOf offset blocks).takeWhile fun entry => ¬ key < entry.firstKey).getLast? =
        some ⟨leadKey block, offset + dataSize front, blockSize block⟩ ∧
      ¬ key < leadKey block ∧ ∀ next ∈ later.head?, key < leadKey next := by
  induction blocks generalizing offset with
  | nil => exact .inl ⟨rfl, by simp⟩
  | cons block later ih =>
    by_cases above : key < leadKey block
    · exact .inl ⟨by simp [indexOf, above], by simpa using above⟩
    · right
      have first : (indexOf offset (block :: later)).takeWhile (fun entry => ¬ key < entry.firstKey) =
          ⟨leadKey block, offset, blockSize block⟩ ::
            (indexOf (offset + blockSize block) later).takeWhile fun entry => ¬ key < entry.firstKey := by
        rw [indexOf, List.takeWhile_cons_of_pos (by simpa using above)]
      rcases ih (offset + blockSize block) with ⟨none, next⟩ | ⟨front, found, rest, split, last, below, next⟩
      · refine ⟨[], block, later, rfl, ?_, above, next⟩
        rw [first, List.getLast?_cons, none]
        rfl
      · refine ⟨block :: front, found, rest, by simp [split], ?_, below, next⟩
        rw [first, List.getLast?_cons, last, Option.getD_some, dataSize_cons, Nat.add_assoc]

end SSTableReader

/-- Only the first block can be empty. -/
theorem blocksOf_tail_ne_nil (entries : List Entry) : ∀ block ∈ (blocksOf entries).tail, block ≠ [] := by
  cases entries with
  | nil => simp [blocksOf, splitBlocks]
  | cons entry later =>
    intro block member
    have filled : ∀ block ∈ splitBlocks [entry] later, block ≠ [] := splitBlocks_ne_nil (by simp)
    rw [blocksOf_cons] at member
    split at member
    · exact filled block member
    · exact filled block (List.mem_of_mem_tail member)

/-- In a block that starts above a key, or behind such a one, the key is not found. -/
theorem find?_later_blocks {later : List (List Entry)} {key : Key} (ascending : Assoc.Ascending later.flatten)
    (above : ∀ next ∈ later.head?, key < leadKey next) : Assoc.find? later.flatten key = none := by
  apply Assoc.find?_eq_none_iff.mpr
  intro entry member
  cases later with
  | nil => simp at member
  | cons next rest =>
    have larger := above next rfl
    cases next with
    | nil => exact absurd larger (by simp [leadKey])
    | cons first others =>
      change key < first.1 at larger
      rw [List.flatten_cons, List.cons_append] at ascending member
      rcases List.mem_cons.mp member with here | behind
      · rw [here]
        exact ne_of_gt larger
      · exact ne_of_gt (larger.trans ((List.pairwise_cons.mp ascending).1 entry behind))

/-- In the blocks in front of one that does not start above the key, it is not found. -/
theorem find?_front_blocks {front : List (List Entry)} {block : List Entry} {later : List (List Entry)} {key : Key}
    (ascending : Assoc.Ascending (front ++ block :: later).flatten)
    (filled : ∀ other ∈ (front ++ block :: later).tail, other ≠ []) (below : ¬ key < leadKey block) :
    Assoc.find? front.flatten key = none := by
  apply Assoc.find?_eq_none_iff.mpr
  intro entry member
  cases front with
  | nil => simp at member
  | cons first others =>
    cases block with
    | nil => exact absurd rfl (filled [] (by simp))
    | cons lead rest =>
      change ¬ key < lead.1 at below
      rw [List.flatten_append] at ascending
      have smaller := (List.pairwise_append.mp ascending).2.2 entry member lead (by simp)
      exact ne_of_lt (lt_of_lt_of_le smaller (not_lt.mp below))

theorem length_le_blockSize (block : List Entry) : block.length ≤ blockSize block := by
  induction block with
  | nil => simp
  | cons entry later ih =>
    have positive := requiredSize_pos entry
    rw [blockSize_cons, List.length_cons]
    omega

/-- A key that passes the filter is found as in the entries. -/
theorem SSTableReader.get_table {reader : SSTableReader} {entries : List Entry}
    (table : TableOf reader (blocksOf entries)) (ascending : Assoc.Ascending entries) (key : Key) :
    reader.get key = .ok (if reader.bloomFilter.mayContain key then Assoc.find? entries key else none) := by
  rw [SSTableReader.get]
  by_cases passes : reader.bloomFilter.mayContain key = true
  · have whole := blocksOf_flatten entries
    have filled := blocksOf_tail_ne_nil entries
    rw [← whole] at ascending
    simp only [passes, Bool.not_true, Bool.false_eq_true, ↓reduceIte, blockOf, table.index]
    rcases searchIndex_cases (blocksOf entries) 0 key with ⟨none, above⟩ | ⟨front, block, later, split, found, below, next⟩
    · rw [none, ← whole, find?_later_blocks ascending above]
    · rw [found]
      rw [split] at ascending filled table
      have parts := ascending
      rw [List.flatten_append, List.flatten_cons] at parts
      obtain ⟨_, behind, _⟩ := List.pairwise_append.mp parts
      obtain ⟨order, rest, _⟩ := List.pairwise_append.mp behind
      have buffer := SSTableIterator.readBuffer_block table []
      have fits : ∀ entry ∈ block, EntryFits entry := table.fits block (by simp)
      have atBlock : ByteBuffer.At (blockBytes block) 0 (blockBytes block ++ []) := by
        rw [List.append_nil]
        exact ByteBuffer.at_start _
      have searched := searchBlock_at key atBlock (Nat.zero_add _).symm fits order (length_le_blockSize block)
      simp only [Nat.zero_add, buffer, bind, Except.bind, searched]
      rw [← whole, split, List.flatten_append, List.flatten_cons, Assoc.find?_append, Assoc.find?_append,
        find?_front_blocks ascending filled below, find?_later_blocks rest next, Option.none_or, Option.or_none]
  · simp [passes]

section

variable (sizing : BloomFilter.Sizing) (estimatedKeys : Nat) (entries : List Entry)

/-- The size of the filter block. -/
def filterSize : Nat := (BloomFilter.new sizing estimatedKeys).sizeBytes + 1

/-- The filter, as far as the 32-bit size of its block keeps it. -/
def keptFilter : BloomFilter :=
  let filter := (BloomFilter.new sizing estimatedKeys).addAll (entries.map Prod.fst)
  .ofBytes (filter.bitArray.take (filterSize sizing estimatedKeys % 2 ^ 32 - 1)) filter.numHashes

theorem length_tableFile : (tableFile sizing estimatedKeys entries).length =
    dataSize (blocksOf entries) + indexSize entries + filterSize sizing estimatedKeys + footerSize := by
  rw [tableFile_eq]
  simp only [List.length_append, length_dataBytes, length_indexBlock, length_filterBlock, length_encodeFooter, filterSize]
  omega

theorem footer_sizeBytes : (loadedWriter sizing estimatedKeys entries).footer.sizeBytes =
    (tableFile sizing estimatedKeys entries).length := by
  rw [length_tableFile, filterSize, ← length_filterBlock sizing estimatedKeys entries,
    ← length_indexBlock sizing estimatedKeys, ← (loadedWriter_flushed sizing estimatedKeys entries).offset]
  rfl

theorem footer_entryCount : (loadedWriter sizing estimatedKeys entries).footer.entryCount = entries.length :=
  loadedWriter_entryCount sizing estimatedKeys entries

theorem footer_highestSequence : (loadedWriter sizing estimatedKeys entries).footer.highestSequence =
    highestSequence entries :=
  (SSTableWriter.addAll_fields entries (.create sizing estimatedKeys)).2.2

variable {sizing estimatedKeys entries}

/-- A filter whose block fits its size field misses no key. -/
theorem keptFilter_contains (filled : 2 ≤ filterSize sizing estimatedKeys)
    (fits : filterSize sizing estimatedKeys < 2 ^ 32) :
    ∀ entry ∈ entries, (keptFilter sizing estimatedKeys entries).mayContain entry.1 = true := by
  have bytes : (BloomFilter.new sizing estimatedKeys).sizeBytes ≠ 0 := by
    rw [filterSize] at filled
    omega
  obtain ⟨sound, _, added⟩ := (BloomFilter.sound_new sizing bytes).addAll (entries.map Prod.fst)
  have whole : ((BloomFilter.new sizing estimatedKeys).addAll (entries.map Prod.fst)).bitArray.take
      (filterSize sizing estimatedKeys % 2 ^ 32 - 1) =
        ((BloomFilter.new sizing estimatedKeys).addAll (entries.map Prod.fst)).bitArray := by
    apply List.take_of_length_le
    rw [Nat.mod_eq_of_lt fits, filterSize, Nat.add_sub_cancel]
    exact (BloomFilter.sizeBytes_addAll _ _).le
  intro entry member
  rw [keptFilter, whole, sound.ofBytes_eq]
  exact added entry.1 (List.mem_map.mpr ⟨entry, member, rfl⟩)

/-- The reader that opens a table within bounds, with its filter. -/
theorem WithinBounds.reads (bounds : WithinBounds entries) {reader : SSTableReader}
    (accepted : SSTableReader.create (tableFile sizing estimatedKeys entries) = .ok reader) :
    TableOf reader (blocksOf entries) ∧ reader.bloomFilter = keptFilter sizing estimatedKeys entries ∧
      reader.footer = (loadedWriter sizing estimatedKeys entries).footer.stored := by
  obtain ⟨filter, together⟩ := bounds.accepted accepted
  obtain ⟨opened, same, table, footer⟩ := bounds.opens filter together
  rw [accepted] at same
  cases same
  refine ⟨table, ?_, footer⟩
  rw [← length_indexBlock sizing estimatedKeys] at together
  rw [SSTableReader.create_written (bounds.data.trans (by decide)) filter together] at accepted
  cases accepted
  have hashes := BloomFilter.numHashes_new sizing estimatedKeys
  rw [← BloomFilter.numHashes_addAll _ (entries.map Prod.fst)] at hashes
  simp only [loadedWriter_bloomFilter, Nat.mod_eq_of_lt hashes]
  rfl

end

/-- The reader accepts the written table, finds every key as it was written, and
reports the table's numbers. -/
def LooksUp (sizing : BloomFilter.Sizing) (estimatedKeys : Nat) (entries : List Entry) : Prop :=
  ∃ reader, SSTableReader.create (tableFile sizing estimatedKeys entries) = .ok reader ∧
    (∀ key, reader.get key = .ok (Assoc.find? entries key)) ∧ reader.footer.entryCount = entries.length ∧
    reader.footer.highestSequence = highestSequence entries ∧
    reader.footer.sizeBytes = (tableFile sizing estimatedKeys entries).length

/-- Point lookup undoes the writer exactly when the table's numbers fit their
fields. A filter that does not fit its own may still let all the keys through. -/
theorem lookup_undoes_writer_iff (sizing : BloomFilter.Sizing) {estimatedKeys : Nat} {entries : List Entry}
    (bounds : WithinBounds entries) (ascending : Assoc.Ascending entries) : LooksUp sizing estimatedKeys entries ↔
      2 ≤ filterSize sizing estimatedKeys % 2 ^ 32 ∧
      indexSize entries + filterSize sizing estimatedKeys % 2 ^ 32 < 2 ^ 32 ∧
      entries.length < 2 ^ 32 ∧ (tableFile sizing estimatedKeys entries).length < 2 ^ 64 ∧
      (filterSize sizing estimatedKeys < 2 ^ 32 ∨
        ∀ entry ∈ entries, (keptFilter sizing estimatedKeys entries).mayContain entry.1 = true) := by
  constructor
  · rintro ⟨reader, accepted, gets, count, _, size⟩
    obtain ⟨table, filter, footer⟩ := bounds.reads accepted
    obtain ⟨filterFits, together⟩ := bounds.accepted accepted
    refine ⟨filterFits, together, ?_, ?_, .inr ?_⟩
    · rw [← count, footer]
      exact Nat.mod_lt _ (by decide)
    · rw [← size, footer]
      exact Nat.mod_lt _ (by decide)
    · intro entry member
      have found := gets entry.1
      rw [SSTableReader.get_table table ascending, Assoc.find?_of_mem ascending member] at found
      by_contra missed
      rw [← filter] at missed
      simp [missed] at found
  · rintro ⟨filterFits, together, count, size, kept⟩
    obtain ⟨reader, accepted, _, _⟩ := bounds.opens filterFits together
    obtain ⟨table, filter, footer⟩ := bounds.reads accepted
    have contains : ∀ entry ∈ entries, (keptFilter sizing estimatedKeys entries).mayContain entry.1 = true := by
      rcases kept with fits | lucky
      · exact keptFilter_contains (filterFits.trans (Nat.mod_le _ _)) fits
      · exact lucky
    refine ⟨reader, accepted, ?_, ?_, ?_, ?_⟩
    · intro key
      rw [SSTableReader.get_table table ascending, filter]
      split
      · rfl
      · rename_i missed
        have absent : Assoc.find? entries key = none := by
          apply Assoc.find?_eq_none_iff.mpr
          intro entry member same
          exact missed (same ▸ contains entry member)
        rw [absent]
    · rw [footer]
      exact (congrArg (· % 2 ^ 32) (footer_entryCount sizing estimatedKeys entries)).trans (Nat.mod_eq_of_lt count)
    · rw [footer]
      refine (congrArg (· % 2 ^ 64) (footer_highestSequence sizing estimatedKeys entries)).trans ?_
      exact Nat.mod_eq_of_lt (highestSequence_lt (by decide) bounds.sequences)
    · rw [footer]
      exact (congrArg (· % 2 ^ 64) (footer_sizeBytes sizing estimatedKeys entries)).trans (Nat.mod_eq_of_lt size)

/-- Two values and a tombstone between them. -/
theorem lookup_undoes_writer_three_entries :
    LooksUp nominalSizing 3 [([1], ⟨[10], false, 1⟩), ([1, 0], ⟨[], true, 3⟩), ([2], ⟨[20], false, 2⟩)] :=
  (lookup_undoes_writer_iff nominalSizing ⟨by decide, by decide +kernel, by decide +kernel⟩
    (by decide +kernel)).mpr
    ⟨by decide +kernel, by decide +kernel, by decide, by decide +kernel, .inl (by decide +kernel)⟩

/-- Blocks of entries that fit one keep the block size. -/
theorem splitBlocks_short {current entries : List Entry} (short : blockSize current ≤ maxPagingSizeBytes)
    (fits : ∀ entry ∈ entries, requiredSize entry ≤ maxPagingSizeBytes) :
    ∀ block ∈ splitBlocks current entries, blockSize block ≤ maxPagingSizeBytes := by
  induction entries generalizing current with
  | nil =>
    intro block member
    rw [splitBlocks] at member
    split at member
    · simp at member
    · rw [List.mem_singleton.mp member]
      exact short
  | cons entry later ih =>
    have first := fits entry (by simp)
    have rest : ∀ other ∈ later, requiredSize other ≤ maxPagingSizeBytes := fun other member => fits other (by simp [member])
    intro block member
    rw [splitBlocks] at member
    split at member
    · rcases List.mem_cons.mp member with here | behind
      · rw [here]
        exact short
      · exact ih (by simpa [blockSize] using first) rest block behind
    · rename_i room
      refine ih ?_ rest block member
      simp only [blockSize, List.map_append, List.map_cons, List.map_nil, List.sum_append, List.sum_singleton] at room ⊢
      omega

/-- Blocks of small entries are few. -/
theorem splitBlocks_few {current entries : List Entry} {size : Nat} (fits : ∀ entry ∈ entries, requiredSize entry ≤ size)
    (small : size ≤ maxPagingSizeBytes) : (splitBlocks current entries).length * (maxPagingSizeBytes + 1 - size) ≤
      blockSize current + blockSize entries + maxPagingSizeBytes + 1 := by
  induction entries generalizing current with
  | nil =>
    rw [splitBlocks]
    split
    · simp
    · simp only [List.length_singleton]
      omega
  | cons entry later ih =>
    have first := fits entry (by simp)
    have rest : ∀ other ∈ later, requiredSize other ≤ size := fun other member => fits other (by simp [member])
    rw [splitBlocks, blockSize_cons]
    split
    · have behind : (splitBlocks [entry] later).length * _ ≤ _ := ih rest
      rw [List.length_cons, Nat.succ_mul]
      simp only [blockSize, List.map_cons, List.map_nil, List.sum_singleton] at *
      omega
    · have grown : (splitBlocks (current ++ [entry]) later).length * _ ≤ _ := ih rest
      simp only [blockSize, List.map_append, List.map_cons, List.map_nil, List.sum_append, List.sum_singleton] at *
      omega

/-- So many entries under four-byte keys. -/
def numbered (count : Nat) : List Entry := (List.range count).map fun number => (encodeUint32 number, ⟨[], false, 1⟩)

theorem length_numbered (count : Nat) : (numbered count).length = count := by simp [numbered]

theorem numbered_ascending {count : Nat} (fits : count ≤ 2 ^ 32) : Assoc.Ascending (numbered count) := by
  rw [Assoc.Ascending, numbered, List.pairwise_map]
  refine List.Pairwise.imp_of_mem ?_ List.pairwise_lt_range
  intro left right leftIn rightIn less
  apply ByteBuffer.encode_lt
  have leftBound := List.mem_range.mp leftIn
  have rightBound := List.mem_range.mp rightIn
  rw [Nat.mod_eq_of_lt (by omega), Nat.mod_eq_of_lt (by omega)]
  exact less

/-- Short lead keys make a short index. -/
theorem indexSize_le {entries : List Entry} {bound : Nat} (short : ∀ entry ∈ entries, entry.1.length ≤ bound) :
    indexSize entries ≤ (blocksOf entries).length * (16 + bound) := by
  have lead : ∀ size ∈ (blocksOf entries).map fun block => 16 + (leadKey block).length, size ≤ 16 + bound := by
    intro size member
    obtain ⟨block, inside, rfl⟩ := List.mem_map.mp member
    cases block with
    | nil => simp [leadKey]
    | cons entry later =>
      have whole : entry ∈ entries := by
        rw [← blocksOf_flatten entries]
        exact List.mem_flatten.mpr ⟨entry :: later, inside, by simp⟩
      exact Nat.add_le_add_left (short entry whole) 16
  have total := List.sum_le_card_nsmul _ _ lead
  rw [List.length_map, nsmul_eq_mul] at total
  exact total

theorem numbered_entry {count : Nat} {entry : Entry} (member : entry ∈ numbered count) :
    entry.1.length = 4 ∧ requiredSize entry = 21 ∧ entry.2.sequence = 1 := by
  obtain ⟨number, _, rfl⟩ := List.mem_map.mp member
  exact ⟨rfl, rfl, rfl⟩

theorem blockSize_numbered (count : Nat) : blockSize (numbered count) = 21 * count := by
  have each : ∀ size ∈ (numbered count).map requiredSize, size = 21 := by
    intro size member
    obtain ⟨entry, inside, rfl⟩ := List.mem_map.mp member
    exact (numbered_entry inside).2.1
  rw [blockSize, List.sum_eq_card_nsmul _ _ each]
  rw [List.length_map, length_numbered, nsmul_eq_mul, Nat.mul_comm]
  rfl

theorem numbered_bounds {count : Nat} (fits : count ≤ 2 ^ 32) : WithinBounds (numbered count) := by
  have small : ∀ entry ∈ numbered count, requiredSize entry ≤ 21 := fun entry member => (numbered_entry member).2.1.le
  refine ⟨?_, ?_, ?_⟩
  · intro entry member
    rw [(numbered_entry member).2.2]
    decide
  · intro block member
    have short : blockSize block ≤ maxPagingSizeBytes :=
      splitBlocks_short (by simp [blockSize]) (fun entry inside => (small entry inside).trans (by decide)) block member
    exact short.trans_lt (by decide)
  · have few : (blocksOf (numbered count)).length * (maxPagingSizeBytes + 1 - 21) ≤ _ := splitBlocks_few small (by decide)
    have index := indexSize_le fun entry (member : entry ∈ numbered count) => (numbered_entry member).1.le
    rw [blockSize_numbered] at few
    have empty : blockSize [] = 0 := rfl
    rw [empty, show maxPagingSizeBytes = 4096 from rfl] at few
    omega

/-- No footer says that a table has 2^32 entries. -/
theorem not_looksUp_of_many {sizing : BloomFilter.Sizing} {estimatedKeys : Nat} {entries : List Entry}
    (bounds : WithinBounds entries) (many : 2 ^ 32 ≤ entries.length) : ¬ LooksUp sizing estimatedKeys entries := by
  rintro ⟨reader, accepted, _, count, _⟩
  obtain ⟨_, _, footer⟩ := bounds.reads accepted
  have stored : reader.footer.entryCount < 2 ^ 32 := by
    rw [footer]
    exact Nat.mod_lt _ (by decide)
  omega

/-- A table of 2^32 entries says that it has none. -/
theorem entry_count_wraps : Assoc.Ascending (numbered (2 ^ 32)) ∧ WithinBounds (numbered (2 ^ 32)) ∧
    ¬ LooksUp nominalSizing 1 (numbered (2 ^ 32)) :=
  ⟨numbered_ascending le_rfl, numbered_bounds le_rfl, not_looksUp_of_many (numbered_bounds le_rfl) (length_numbered _).ge⟩

end Enigma
