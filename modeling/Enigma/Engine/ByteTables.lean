import Enigma.SSTable.RoundTrip
import Enigma.Engine.Dazzle

/-! Table files as bytes, and what the entry lists of `entryFormat` leave out of
them. For a table whose numbers fit their fields the two agree. -/

namespace Enigma

/-- Contents of a file after each of some appends. -/
def growth : Bytes → List Bytes → List Bytes
  | _, [] => []
  | front, chunk :: later => (front ++ chunk) :: growth (front ++ chunk) later

def byteFormat (sizing : BloomFilter.Sizing) : TableFormat Bytes where
  opened _ _ := []
  appended estimatedKeys entries := growth [] (tableAppends sizing estimatedKeys entries)
  create file := do
    let reader ← SSTableReader.create file
    return ⟨reader.footer.sizeBytes, reader.footer.entryCount, reader.footer.highestSequence⟩
  get file key := do
    let reader ← SSTableReader.create file
    reader.get key
  blockCount file :=
    match SSTableReader.create file with
    | .ok reader => reader.indexEntries.length
    | .error _ => 0
  scan file failure :=
    match SSTableReader.create file with
    | .ok reader => SSTableIterator.scan reader failure
    | .error _ => ⟨[], none⟩

/-- The contents that the writer passes through before its file is complete. -/
def unfinished (sizing : BloomFilter.Sizing) (estimatedKeys : Nat) (entries : List Entry) : List Bytes :=
  ([] :: growth [] (tableAppends sizing estimatedKeys entries)).dropLast

/-- The entry lists of this writer's tables, and the reader's answers to the
contents in between. One that ends in a value with a footer in it may be taken as a
table; entry lists have no such files, and an error stands in its place. -/
def writerShape (sizing : BloomFilter.Sizing) : TableShape where
  sizeBytes estimatedKeys entries := dataSize (blocksOf entries) + indexSize entries +
    ((BloomFilter.new sizing estimatedKeys).sizeBytes + 1) + footerSize
  tornAnswers estimatedKeys entries := (unfinished sizing estimatedKeys entries).map fun file =>
    match SSTableReader.create file with
    | .ok _ => overrun
    | .error error => error
  blocks := blocksOf
  blocks_flatten := blocksOf_flatten
  blocks_nil := rfl

/-- A table whose counts and sizes all fit their fields. -/
structure FitsFields (sizing : BloomFilter.Sizing) (estimatedKeys : Nat) (entries : List Entry) : Prop
    extends WithinBounds entries where
  count : entries.length < 2 ^ 32
  together : indexSize entries + ((BloomFilter.new sizing estimatedKeys).sizeBytes + 1) < 2 ^ 32

section

variable {sizing : BloomFilter.Sizing} {estimatedKeys : Nat} {entries : List Entry}

theorem byteFormat_complete (sizing : BloomFilter.Sizing) (estimatedKeys : Nat) (entries : List Entry) :
    (byteFormat sizing).complete estimatedKeys entries = tableFile sizing estimatedKeys entries := by
  have general : ∀ (chunks : List Bytes) (front : Bytes),
      (growth front chunks).getLast?.getD front = front ++ chunks.flatten := by
    intro chunks
    induction chunks with
    | nil => simp [growth]
    | cons chunk later ih =>
      intro front
      rw [growth, List.getLast?_cons, Option.getD_some, ih, List.flatten_cons, List.append_assoc]
  exact (general (tableAppends sizing estimatedKeys entries) []).trans (List.nil_append _)

theorem FitsFields.filter (fits : FitsFields sizing estimatedKeys entries) (positive : estimatedKeys ≠ 0)
    (few : estimatedKeys < 2 ^ 60) : 2 ≤ ((BloomFilter.new sizing estimatedKeys).sizeBytes + 1) % 2 ^ 32 := by
  have filter := mt (BloomFilter.sizeBytes_new_eq_zero_iff sizing few).mp positive
  have together := fits.together
  rw [Nat.mod_eq_of_lt (by omega)]
  omega

/-- The footer of such a table says what it was written from. -/
theorem FitsFields.footer (fits : FitsFields sizing estimatedKeys entries) :
    (loadedWriter sizing estimatedKeys entries).footer.stored.sizeBytes =
        (writerShape sizing).sizeBytes estimatedKeys entries ∧
      (loadedWriter sizing estimatedKeys entries).footer.stored.entryCount = entries.length ∧
      (loadedWriter sizing estimatedKeys entries).footer.stored.highestSequence = highestSequence entries := by
  have data := fits.data
  have together := fits.together
  refine ⟨?_, ?_, ?_⟩
  · change (_ + _ + _ + footerSize) % 2 ^ 64 = _
    rw [(loadedWriter_flushed sizing estimatedKeys entries).offset, length_indexBlock, length_filterBlock]
    refine Nat.mod_eq_of_lt ?_
    rw [footerSize]
    omega
  · change (loadedWriter sizing estimatedKeys entries).entryCount % 2 ^ 32 = _
    rw [loadedWriter_entryCount, Nat.mod_eq_of_lt fits.count]
  · change (loadedWriter sizing estimatedKeys entries).highestSequence % 2 ^ 64 = _
    have highest : (loadedWriter sizing estimatedKeys entries).highestSequence = highestSequence entries :=
      (SSTableWriter.addAll_fields entries (.create sizing estimatedKeys)).2.2
    rw [highest]
    exact Nat.mod_eq_of_lt (highestSequence_lt (by decide) fits.sequences)

/-- As long as none of them is taken as a table, the reader answers the contents in
between as it answers torn entry lists. -/
theorem byteFormat_unfinished
    (refused : ∀ file ∈ unfinished sizing estimatedKeys entries, ∃ error, SSTableReader.create file = .error error) :
    (unfinished sizing estimatedKeys entries).map (byteFormat sizing).create =
      (((writerShape sizing).tornAnswers estimatedKeys entries).map EntryFile.torn).map
        (entryFormat (writerShape sizing)).create := by
  simp only [writerShape, List.map_map]
  apply List.map_congr_left
  intro file member
  obtain ⟨error, answered⟩ := refused file member
  simp only [Function.comp_apply, byteFormat, entryFormat, answered]
  rfl

/-- A complete file is to the reader and to the iterator what its entry list is. -/
theorem byteFormat_refines (fits : FitsFields sizing estimatedKeys entries) (positive : estimatedKeys ≠ 0)
    (few : estimatedKeys < 2 ^ 60) : (byteFormat sizing).create (tableFile sizing estimatedKeys entries) =
        (entryFormat (writerShape sizing)).create (.whole estimatedKeys entries) ∧
      (byteFormat sizing).blockCount (tableFile sizing estimatedKeys entries) =
        (entryFormat (writerShape sizing)).blockCount (.whole estimatedKeys entries) ∧
      (byteFormat sizing).scan (tableFile sizing estimatedKeys entries) =
        (entryFormat (writerShape sizing)).scan (.whole estimatedKeys entries) := by
  have together := fits.together
  have within : indexSize entries + ((BloomFilter.new sizing estimatedKeys).sizeBytes + 1) % 2 ^ 32 < 2 ^ 32 := by omega
  obtain ⟨size, count, highest⟩ := fits.footer
  obtain ⟨reader, accepted, table, footer⟩ := fits.toWithinBounds.opens (fits.filter positive few) within
  refine ⟨?_, ?_, ?_⟩
  · rw [entryFormat_create_whole _ entries positive, ← size, ← count, ← highest, ← footer]
    simp only [byteFormat, accepted]
    rfl
  · simp only [byteFormat, accepted, table.index, length_indexOf]
    rfl
  · funext failure
    simp only [byteFormat, accepted]
    exact SSTableIterator.scan_table table

end

end Enigma
