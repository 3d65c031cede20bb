import Enigma.SSTable.Iterator
import Mathlib.Data.List.TakeWhile

/-! Writing a table and scanning it. An entry larger than a block that comes first
makes the writer flush an empty buffer, and the scan ends at that block. -/

namespace Enigma

/-- The size of the index over the blocks of some entries. -/
def indexSize (entries : List Entry) : Nat := ((blocksOf entries).map fun block => 16 + (leadKey block).length).sum

/-- The reader accepts the written table, and a full scan yields what was written
and ends without an error. -/
def RoundTrips (sizing : BloomFilter.Sizing) (estimatedKeys : Nat) (entries : List Entry) : Prop :=
  ∃ reader, SSTableReader.create (tableFile sizing estimatedKeys entries) = .ok reader ∧
    SSTableIterator.scan reader (fun _ => none) = ⟨entries, none⟩

/-- Sequences are 64-bit numbers, and blocks and index are shorter than their
32-bit sizes can say. -/
structure WithinBounds (entries : List Entry) : Prop where
  sequences : ∀ entry ∈ entries, entry.2.sequence < 2 ^ 64
  blocks : ∀ block ∈ blocksOf entries, blockSize block < 2 ^ 32
  index : indexSize entries < 2 ^ 32

section

variable {sizing : BloomFilter.Sizing} {estimatedKeys : Nat} {entries : List Entry}

theorem length_indexBlock (sizing : BloomFilter.Sizing) (estimatedKeys : Nat) (entries : List Entry) :
    (loadedWriter sizing estimatedKeys entries).indexBlock.length = indexSize entries := by
  have general : ∀ (offset : Nat) (blocks : List (List Entry)), ((indexOf offset blocks).flatMap encodeIndexEntry).length =
      (blocks.map fun block => 16 + (leadKey block).length).sum := by
    intro offset blocks
    induction blocks generalizing offset with
    | nil => rfl
    | cons block later ih => simp [indexOf, ih, length_encodeIndexEntry]
  rw [SSTableWriter.indexBlock, (loadedWriter_flushed sizing estimatedKeys entries).index, general, indexSize]

/-- A short index is one over few blocks, which short ones cannot make long. -/
theorem WithinBounds.data (bounds : WithinBounds entries) : dataSize (blocksOf entries) < 2 ^ 60 := by
  have count : 16 * (blocksOf entries).length ≤ indexSize entries := by
    rw [indexSize]
    induction blocksOf entries with
    | nil => simp
    | cons block later ih =>
      rw [List.length_cons, List.map_cons, List.sum_cons]
      omega
  have total : ∀ blocks : List (List Entry), (∀ block ∈ blocks, blockSize block < 2 ^ 32) →
      dataSize blocks ≤ blocks.length * 2 ^ 32 := by
    intro blocks short
    induction blocks with
    | nil => simp [dataSize]
    | cons block later ih =>
      have first := short block (by simp)
      have rest := ih fun other member => short other (by simp [member])
      rw [dataSize_cons, List.length_cons]
      omega
  have size := total _ bounds.blocks
  have index := bounds.index
  omega

theorem WithinBounds.entryFits (bounds : WithinBounds entries) :
    ∀ block ∈ blocksOf entries, ∀ entry ∈ block, EntryFits entry := by
  intro block member entry inside
  have part : requiredSize entry ≤ blockSize block :=
    List.single_le_sum (fun _ _ => Nat.zero_le _) _ (List.mem_map.mpr ⟨entry, inside, rfl⟩)
  have short := bounds.blocks block member
  have whole : entry ∈ entries := by
    rw [← blocksOf_flatten entries]
    exact List.mem_flatten.mpr ⟨block, member, inside⟩
  rw [requiredSize] at part
  exact ⟨by omega, by omega, bounds.sequences entry whole⟩

/-- The index is stored as it is. -/
theorem WithinBounds.stored (bounds : WithinBounds entries) :
    (indexOf 0 (blocksOf entries)).map IndexEntry.stored = indexOf 0 (blocksOf entries) := by
  have general : ∀ (offset : Nat) (blocks : List (List Entry)), (∀ block ∈ blocks, blockSize block < 2 ^ 32) →
      offset + dataSize blocks < 2 ^ 64 → (indexOf offset blocks).map IndexEntry.stored = indexOf offset blocks := by
    intro offset blocks short inside
    induction blocks generalizing offset with
    | nil => rfl
    | cons block later ih =>
      rw [dataSize_cons] at inside
      have rest := ih (offset + blockSize block) (fun other member => short other (by simp [member])) (by omega)
      have start : offset < 2 ^ 64 := by omega
      rw [indexOf, List.map_cons, rest, IndexEntry.stored, Nat.mod_eq_of_lt start,
        Nat.mod_eq_of_lt (short block (by simp))]
  have data := bounds.data
  exact general 0 _ bounds.blocks (by omega)

/-- The reader that opens a table within bounds. -/
theorem WithinBounds.opens (bounds : WithinBounds entries)
    (filter : 2 ≤ ((BloomFilter.new sizing estimatedKeys).sizeBytes + 1) % 2 ^ 32)
    (together : indexSize entries + ((BloomFilter.new sizing estimatedKeys).sizeBytes + 1) % 2 ^ 32 < 2 ^ 32) :
    ∃ reader, SSTableReader.create (tableFile sizing estimatedKeys entries) = .ok reader ∧
      TableOf reader (blocksOf entries) ∧ reader.footer = (loadedWriter sizing estimatedKeys entries).footer.stored := by
  rw [← length_indexBlock sizing estimatedKeys] at together
  refine ⟨_, SSTableReader.create_written (bounds.data.trans (by decide)) filter together, ?_, rfl⟩
  exact {
    index := bounds.stored
    offsets := bounds.data.trans (by decide)
    data := ⟨_, tableFile_eq sizing estimatedKeys entries⟩
    fits := bounds.entryFits }

/-- What the reader's acceptance says about the sizes. -/
theorem WithinBounds.accepted (bounds : WithinBounds entries) {reader : SSTableReader}
    (accepted : SSTableReader.create (tableFile sizing estimatedKeys entries) = .ok reader) :
    2 ≤ ((BloomFilter.new sizing estimatedKeys).sizeBytes + 1) % 2 ^ 32 ∧
      indexSize entries + ((BloomFilter.new sizing estimatedKeys).sizeBytes + 1) % 2 ^ 32 < 2 ^ 32 := by
  rw [SSTableReader.create_tableFile] at accepted
  split at accepted
  · cases accepted
  · rename_i filter
    have filterSize : (loadedWriter sizing estimatedKeys entries).footer.stored.filterBlockSize =
        ((BloomFilter.new sizing estimatedKeys).sizeBytes + 1) % 2 ^ 32 :=
      congrArg (· % 2 ^ 32) (length_filterBlock sizing estimatedKeys entries)
    have index : (loadedWriter sizing estimatedKeys entries).footer.stored.indexBlockSize = indexSize entries :=
      (congrArg (· % 2 ^ 32) (length_indexBlock sizing estimatedKeys entries)).trans (Nat.mod_eq_of_lt bounds.index)
    have fits := SSTableReader.readBlocks_fits accepted (by omega)
    rw [index, filterSize] at fits
    exact ⟨by omega, fits⟩

/-- Every block has entries, unless the first entry is larger than a block. -/
theorem blocksOf_ne_nil (first : ∀ entry ∈ entries.head?, requiredSize entry ≤ maxPagingSizeBytes) :
    ∀ block ∈ blocksOf entries, block ≠ [] := by
  cases entries with
  | nil =>
    intro block member
    simp [blocksOf, splitBlocks] at member
  | cons entry later =>
    have fits : ¬ maxPagingSizeBytes < requiredSize entry := Nat.not_lt.mpr (first entry rfl)
    rw [blocksOf_cons, if_neg fits]
    exact splitBlocks_ne_nil (by simp)

/-- The scan of a table whose first entry is larger than a block ends at once. -/
theorem scan_oversized {entry : Entry} {later : List Entry} {reader : SSTableReader}
    (table : TableOf reader (blocksOf (entry :: later))) (large : maxPagingSizeBytes < requiredSize entry) :
    SSTableIterator.scan reader (fun _ => none) = ⟨[], none⟩ := by
  rw [SSTableIterator.scan_table table, TableShape.scanBlocks_calm, blocksOf_cons, if_pos large]
  rfl

end

/-- A scan undoes the writer exactly when no first entry is larger than a block and
the filter's size, as far as its field holds it, is that of a filter and leaves
room for the index. -/
theorem scan_undoes_writer_iff (sizing : BloomFilter.Sizing) (estimatedKeys : Nat) {entries : List Entry}
    (bounds : WithinBounds entries) : RoundTrips sizing estimatedKeys entries ↔
      (∀ first ∈ entries.head?, requiredSize first ≤ maxPagingSizeBytes) ∧
      2 ≤ ((BloomFilter.new sizing estimatedKeys).sizeBytes + 1) % 2 ^ 32 ∧
      indexSize entries + ((BloomFilter.new sizing estimatedKeys).sizeBytes + 1) % 2 ^ 32 < 2 ^ 32 := by
  constructor
  · rintro ⟨reader, accepted, scanned⟩
    obtain ⟨filter, together⟩ := bounds.accepted accepted
    refine ⟨?_, filter, together⟩
    obtain ⟨opened, same, table, _⟩ := bounds.opens filter together
    rw [accepted] at same
    cases same
    cases entries with
    | nil => simp
    | cons entry later =>
      intro first isFirst
      cases isFirst
      by_contra large
      rw [scan_oversized table (Nat.not_le.mp large)] at scanned
      cases scanned
  · rintro ⟨first, filter, together⟩
    obtain ⟨reader, accepted, table, _⟩ := bounds.opens filter together
    refine ⟨reader, accepted, ?_⟩
    have filled : (blocksOf entries).takeWhile (· ≠ []) = blocksOf entries :=
      List.takeWhile_eq_self_iff.mpr fun block member => by simpa using blocksOf_ne_nil first block member
    rw [SSTableIterator.scan_table table, TableShape.scanBlocks_calm, filled, blocksOf_flatten]

/-- The sizes of the real filter, as long as its floating point is exact enough:
9.585 bits for a key, and as many hash functions as bits for a key times 0.693. -/
def nominalSizing : BloomFilter.Sizing where
  bits expectedKeys := expectedKeys * 9585059 / 1000000
  hashes expectedKeys := (expectedKeys * 9585059 / 1000000 + 7) / 8 * 8 * 693147 / (1000000 * expectedKeys)
  bits_eq_zero_iff expectedKeys _ := by omega

/-- A value and a tombstone. -/
theorem scan_undoes_writer_two_entries :
    RoundTrips nominalSizing 2 [([1], ⟨[10], false, 1⟩), ([2], ⟨[], true, 2⟩)] :=
  (scan_undoes_writer_iff nominalSizing 2 ⟨by decide, by decide +kernel, by decide +kernel⟩).mpr
    ⟨by decide +kernel, by decide +kernel, by decide +kernel⟩

/-- A value of 4096 bytes. -/
def largeEntry : Entry := ([1], ⟨List.replicate 4096 0, false, 1⟩)

theorem largeEntry_size : requiredSize largeEntry = 4114 := by
  rw [requiredSize, largeEntry, List.length_replicate]
  rfl

theorem largeEntry_bounds : WithinBounds [largeEntry] := by
  have blocks : blocksOf [largeEntry] = [[], [largeEntry]] := by
    rw [blocksOf_cons, if_pos (by rw [largeEntry_size]; decide), splitBlocks, if_neg (by simp)]
  refine ⟨?_, ?_, ?_⟩
  · intro entry member
    cases List.mem_singleton.mp member
    decide
  · rw [blocks]
    intro block member
    rcases List.mem_cons.mp member with same | member
    · subst same
      decide
    · cases List.mem_singleton.mp member
      rw [blockSize_cons, largeEntry_size]
      decide
  · rw [indexSize, blocks]
    decide

/-- One large value is written, and the scan yields nothing. -/
theorem oversized_first_entry_is_skipped :
    Assoc.Ascending [largeEntry] ∧ WithinBounds [largeEntry] ∧ ¬ RoundTrips nominalSizing 1 [largeEntry] := by
  refine ⟨List.pairwise_singleton _ _, largeEntry_bounds, ?_⟩
  rintro ⟨reader, accepted, scanned⟩
  obtain ⟨filter, together⟩ := largeEntry_bounds.accepted accepted
  obtain ⟨opened, same, table, _⟩ := largeEntry_bounds.opens filter together
  rw [accepted] at same
  cases same
  rw [scan_oversized table (by rw [largeEntry_size]; decide)] at scanned
  cases scanned

end Enigma
