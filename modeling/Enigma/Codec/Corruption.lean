import Enigma.Wal.Record
import Enigma.SSTable.RoundTrip

/-! What the checksums tell. A change within four bytes in a row changes the
checksum of whatever it is in, wherever it is, so a record or a footer that is
changed there, or whose checksum is changed, is not taken. -/

namespace Enigma

theorem crc32Entry_telling : ShiftRegister.Telling crc32Entry :=
  ShiftRegister.telling_of_bitSteps (by decide) (by decide) crc32Entry_eq_bitSteps

/-- A change of up to four bytes in a row changes the checksum. -/
theorem computeCrc32_burst {front window changed back : Bytes} (length : changed.length = window.length)
    (short : window.length ≤ 4) (differs : changed ≠ window) :
    computeCrc32 (front ++ changed ++ back) ≠ computeCrc32 (front ++ window ++ back) := by
  intro same
  have registers := UInt32.not_inj.mp same
  have numbers := congrArg UInt32.toNat registers
  rw [foldl_crc32Step_toNat, foldl_crc32Step_toNat] at numbers
  exact ShiftRegister.feed_burst crc32Entry_telling (UInt32.toNat_lt _) length short differs numbers

/-- A buffer that differs from another one, but only within some bytes in a row. -/
structure Altered (original buffer : Bytes) (start count : Nat) : Prop where
  length : buffer.length = original.length
  outside : ∀ index, index < start ∨ start + count ≤ index → buffer[index]? = original[index]?
  differs : buffer ≠ original

section

variable {original buffer : Bytes} {start count : Nat}

theorem Altered.take (altered : Altered original buffer start count) : buffer.take start = original.take start := by
  apply List.ext_getElem?
  intro index
  rw [List.getElem?_take, List.getElem?_take]
  split
  · rename_i before
    exact altered.outside index (.inl before)
  · rfl

theorem Altered.drop (altered : Altered original buffer start count) {offset : Nat} (behind : start + count ≤ offset) :
    buffer.drop offset = original.drop offset := by
  apply List.ext_getElem?
  intro index
  rw [List.getElem?_drop, List.getElem?_drop]
  exact altered.outside _ (.inr (by omega))

/-- Where the change is. -/
theorem Altered.split (altered : Altered original buffer start count) (inside : start + count ≤ original.length) :
    ∃ front window changed back : Bytes, original = front ++ window ++ back ∧ buffer = front ++ changed ++ back ∧
      front.length = start ∧ window.length = count ∧ changed.length = count ∧ changed ≠ window := by
  have parts : ∀ bytes : Bytes, bytes = bytes.take start ++ (bytes.drop start).take count ++ bytes.drop (start + count) := by
    intro bytes
    rw [List.append_assoc, ← List.drop_drop, List.take_append_drop, List.take_append_drop]
  refine ⟨original.take start, (original.drop start).take count, (buffer.drop start).take count,
    original.drop (start + count), parts original, ?_, ?_, ?_, ?_, ?_⟩
  · rw [← altered.take, ← altered.drop le_rfl]
    exact parts buffer
  · rw [List.length_take]
    omega
  · rw [List.length_take, List.length_drop]
    omega
  · have length := altered.length
    rw [List.length_take, List.length_drop]
    omega
  · intro same
    apply altered.differs
    rw [parts buffer, parts original, altered.take, altered.drop le_rfl, same]

theorem Altered.dropped (altered : Altered original buffer start count) {offset : Nat} (before : offset ≤ start) :
    Altered (original.drop offset) (buffer.drop offset) (start - offset) count where
  length := by rw [List.length_drop, List.length_drop, altered.length]
  outside := by
    intro index place
    rw [List.getElem?_drop, List.getElem?_drop]
    exact altered.outside _ (by omega)
  differs := by
    intro same
    have front := congrArg (List.take offset) altered.take
    rw [List.take_take, List.take_take, min_eq_left before] at front
    apply altered.differs
    rw [← List.take_append_drop offset buffer, ← List.take_append_drop offset original, front, same]

theorem Altered.taken (altered : Altered original buffer start count) {limit : Nat} (inside : start + count ≤ limit) :
    Altered (original.take limit) (buffer.take limit) start count where
  length := by rw [List.length_take, List.length_take, altered.length]
  outside := by
    intro index place
    rw [List.getElem?_take, List.getElem?_take, altered.outside index place]
  differs := by
    intro same
    apply altered.differs
    rw [← List.take_append_drop limit buffer, ← List.take_append_drop limit original, same, altered.drop inside]

/-- A change within four bytes shows in the checksum. -/
theorem Altered.checksum (altered : Altered original buffer start count) (inside : start + count ≤ original.length)
    (short : count ≤ 4) : computeCrc32 buffer ≠ computeCrc32 original := by
  obtain ⟨front, window, changed, back, rfl, rfl, _, window, changed, differs⟩ := altered.split inside
  exact computeCrc32_burst (by omega) (by omega) differs

/-- A header whose checksum is not that of the body behind it. -/
theorem deserialize_header_mismatch {length checksum body : Bytes} (sized : length.length = 4)
    (summed : checksum.length = 4) (counts : ByteBuffer.decode length = body.length) (large : 25 ≤ body.length)
    (mismatch : ByteBuffer.decode checksum ≠ (computeCrc32 body).toNat) :
    deserializeWalRecord (length ++ checksum ++ body) =
      .error ⟨.badConfig, "checksum mismatch corrupted data found"⟩ := by
  have size : (length ++ checksum ++ body).length = 8 + body.length := by
    rw [List.length_append, List.length_append, sized, summed]
  have lengthField : fieldAt (length ++ checksum ++ body) 0 4 = body.length := by
    rw [fieldAt, List.drop_zero, List.append_assoc, List.take_left' sized, counts]
  have checksumField : fieldAt (length ++ checksum ++ body) 4 4 = ByteBuffer.decode checksum := by
    rw [fieldAt, List.append_assoc, List.drop_left' sized, List.take_left' summed]
  have content : (length ++ checksum ++ body).drop 8 = body :=
    List.drop_left' (by rw [List.length_append, sized, summed])
  apply deserialize_mismatch
  · omega
  · omega
  · rw [checksumField, lengthField, content, List.take_length]
    exact mismatch

/-- Neither a changed checksum nor a change within four bytes of the body goes
unnoticed in a record. -/
theorem deserialize_altered {record : WalRecord} (body : (walRecordBody record).length < 2 ^ 32)
    (altered : Altered (serializeWalRecord record) buffer start count)
    (place : start = 4 ∧ count = 4 ∨
      8 ≤ start ∧ start + count ≤ (serializeWalRecord record).length ∧ count ≤ 4) :
    deserializeWalRecord buffer = .error ⟨.badConfig, "checksum mismatch corrupted data found"⟩ := by
  have large : 25 ≤ (walRecordBody record).length := by
    rw [length_walRecordBody]
    omega
  have counts : ByteBuffer.decode (encodeUint32 (walRecordBody record).length) = (walRecordBody record).length := by
    rw [ByteBuffer.decode_encode]
    exact Nat.mod_eq_of_lt body
  have sum : ByteBuffer.decode (encodeUint32 (computeCrc32 (walRecordBody record)).toNat) =
      (computeCrc32 (walRecordBody record)).toNat := by
    rw [ByteBuffer.decode_encode]
    exact Nat.mod_eq_of_lt (UInt32.toNat_lt _)
  have sized : (encodeUint32 (walRecordBody record).length).length = 4 := ByteBuffer.length_encode _ _
  have summed : (encodeUint32 (computeCrc32 (walRecordBody record)).toNat).length = 4 := ByteBuffer.length_encode _ _
  rcases place with ⟨rfl, rfl⟩ | ⟨behind, inside, short⟩
  · obtain ⟨front, window, changed, back, whole, rfl, frontLength, windowLength, changedLength, differs⟩ :=
      altered.split (by rw [length_serializeWalRecord, getRecordSize]; omega)
    obtain ⟨header, rfl⟩ := List.append_inj whole (by simp only [List.length_append]; omega)
    obtain ⟨rfl, rfl⟩ := List.append_inj header (by omega)
    refine deserialize_header_mismatch frontLength changedLength counts large ?_
    rw [← sum]
    exact fun same => differs (ByteBuffer.decode_injective (by omega) same)
  · have dropped := altered.dropped behind
    have header : (serializeWalRecord record).take 8 = encodeUint32 (walRecordBody record).length ++
        encodeUint32 (computeCrc32 (walRecordBody record)).toNat :=
      List.take_left' (by rw [List.length_append, sized, summed])
    have content : (serializeWalRecord record).drop 8 = walRecordBody record :=
      List.drop_left' (by rw [List.length_append, sized, summed])
    have front := congrArg (List.take 8) altered.take
    rw [List.take_take, List.take_take, min_eq_left behind, header] at front
    rw [content] at dropped
    have length := dropped.length
    have size : (serializeWalRecord record).length = 8 + (walRecordBody record).length := by
      rw [length_serializeWalRecord, getRecordSize, length_walRecordBody]
      omega
    rw [← List.take_append_drop 8 buffer, front]
    refine deserialize_header_mismatch sized summed (counts.trans length.symm) (by omega) ?_
    rw [sum]
    intro same
    exact dropped.checksum (by omega) short (UInt32.toNat_inj.mp same).symm

/-- A file that ends in a footer with the right magic and the right checksum, as
every file that a reader accepts does. -/
structure Footed (file : Bytes) : Prop where
  large : footerSize ≤ file.length
  letters : ((file.drop (file.length - footerSize)).drop magicBytesOffset).take magic.length = magic
  checksum : decodeUint32 (file.drop (file.length - footerSize)) footerChecksumOffset =
    .ok (computeCrc32 ((file.drop (file.length - footerSize)).take footerChecksumOffset)).toNat

theorem readInto_end {file : Bytes} {count : Nat} (inside : count ≤ file.length) :
    readInto [] file count (file.length - count) = file.drop (file.length - count) := by
  have length : (file.drop (file.length - count)).length = count := by
    rw [List.length_drop]
    omega
  have here : ByteBuffer.At file (file.length - count) (file.drop (file.length - count) ++ []) :=
    ⟨by omega, (List.append_nil _).symm⟩
  have read := readInto_at [] here
  rwa [length] at read

theorem footed_of_create {file : Bytes} {reader : SSTableReader} (created : SSTableReader.create file = .ok reader) :
    Footed file := by
  rw [SSTableReader.create] at created
  split at created
  · cases created
  · rename_i large
    rw [readInto_end (by omega)] at created
    obtain ⟨footer, read, _⟩ := exists_of_bind_ok created
    rw [SSTableReader.readFooter] at read
    split at read
    · cases read
    · rename_i letters
      obtain ⟨stored, checksum, read⟩ := exists_of_bind_ok read
      split at read
      · cases read
      · rename_i same
        exact ⟨by omega, not_not.mp letters, not_not.mp same ▸ checksum⟩

/-- Whatever stands before a footer. -/
theorem footed_encodeFooter (front : Bytes) (footer : SSTFooter) : Footed (front ++ encodeFooter footer) := by
  have length : (front ++ encodeFooter footer).length - footerSize = front.length := by
    rw [List.length_append, length_encodeFooter, Nat.add_sub_cancel]
  have last : (front ++ encodeFooter footer).drop ((front ++ encodeFooter footer).length - footerSize) =
      encodeFooter footer := by
    rw [length]
    exact List.drop_left
  have fields : (encodeFooter footer).take footerChecksumOffset = encodeFooterFields footer := by
    simp only [encodeFooter, List.append_assoc]
    exact List.take_left' (length_encodeFooterFields footer)
  have atChecksum : ByteBuffer.At (encodeFooter footer) (encodeFooterFields footer).length
      (encodeUint32 (computeCrc32 (encodeFooterFields footer)).toNat ++ (magic ++ (encodeUint32 0 ++ encodeUint16 0))) := by
    simp only [encodeFooter, List.append_assoc]
    exact ByteBuffer.at_append _ _
  have atMagic := atChecksum.after_number
  have stored := decodeUint_at atChecksum
  rw [length_encodeFooterFields] at stored atMagic
  refine ⟨by rw [List.length_append, length_encodeFooter]; omega, ?_, ?_⟩
  · rw [last]
    exact (congrArg (List.take magic.length) atMagic.bytes).trans List.take_left
  · rw [last, fields]
    exact stored.trans (congrArg _ (Nat.mod_eq_of_lt (UInt32.toNat_lt _)))

/-- So does every table that a writer finishes. -/
theorem footed_tableFile (sizing : BloomFilter.Sizing) (estimatedKeys : Nat) (entries : List Entry) :
    Footed (tableFile sizing estimatedKeys entries) := by
  rw [tableFile_eq, ← List.append_assoc, ← List.append_assoc]
  exact footed_encodeFooter _ _

theorem readFooter_mismatch {fields : Bytes} (large : footerChecksumOffset + 4 ≤ fields.length)
    (letters : (fields.drop magicBytesOffset).take magic.length = magic)
    (mismatch : fieldAt fields footerChecksumOffset 4 ≠
      (computeCrc32 (fields.take footerChecksumOffset)).toNat) :
    SSTableReader.readFooter fields = .error ⟨.badConfig, "invalid checksum"⟩ := by
  rw [SSTableReader.readFooter, if_neg (not_not.mpr letters), decodeUint32, decodeUint_inside large]
  exact if_pos mismatch

/-- The fields of a footer and its checksum, changed in one of the two. -/
theorem readFooter_altered {fields read : Bytes} {offset : Nat} (large : fields.length = footerSize)
    (letters : (fields.drop magicBytesOffset).take magic.length = magic)
    (stored : decodeUint32 fields footerChecksumOffset =
      .ok (computeCrc32 (fields.take footerChecksumOffset)).toNat)
    (altered : Altered fields read offset count)
    (place : offset = footerChecksumOffset ∧ count = 4 ∨ offset + count ≤ footerChecksumOffset ∧ count ≤ 4) :
    SSTableReader.readFooter read = .error ⟨.badConfig, "invalid checksum"⟩ := by
  have sizes : footerSize = 64 ∧ footerChecksumOffset = 46 ∧ magicBytesOffset = 50 := ⟨rfl, rfl, rfl⟩
  have length := altered.length
  have behind : offset + count ≤ magicBytesOffset := by omega
  have kept : footerChecksumOffset + 4 ≤ fields.length := by omega
  rw [decodeUint32, decodeUint_inside kept] at stored
  have sum := Except.ok.inj stored
  refine readFooter_mismatch (by omega) (by rw [altered.drop behind, letters]) ?_
  rcases place with ⟨rfl, rfl⟩ | ⟨before, short⟩
  · rw [altered.take, ← sum]
    intro same
    have checksum : (read.drop footerChecksumOffset).take 4 = (fields.drop footerChecksumOffset).take 4 :=
      ByteBuffer.decode_injective (by simp only [List.length_take, List.length_drop, length]) same
    have after : (read.drop footerChecksumOffset).drop 4 = (fields.drop footerChecksumOffset).drop 4 := by
      rw [List.drop_drop, List.drop_drop]
      exact altered.drop le_rfl
    apply (altered.dropped le_rfl).differs
    rw [← List.take_append_drop 4 (read.drop footerChecksumOffset), checksum, after, List.take_append_drop]
  · rw [fieldAt, altered.drop before, ← fieldAt, sum]
    intro same
    refine (altered.taken before).checksum ?_ short (UInt32.toNat_inj.mp same).symm
    rw [List.length_take]
    omega

/-- Neither a changed checksum nor a change within four bytes of the fields goes
unnoticed in a footer. -/
theorem create_altered {file : Bytes} (footed : Footed file) (altered : Altered file buffer start count)
    (place : start = file.length - footerSize + footerChecksumOffset ∧ count = 4 ∨
      file.length - footerSize ≤ start ∧ start + count ≤ file.length - footerSize + footerChecksumOffset ∧ count ≤ 4) :
    SSTableReader.create buffer = .error ⟨.badConfig, "invalid checksum"⟩ := by
  have large := footed.large
  have length : (file.drop (file.length - footerSize)).length = footerSize := by
    rw [List.length_drop]
    omega
  have small : ¬ buffer.length < footerSize := by
    rw [altered.length]
    omega
  have refused := readFooter_altered length footed.letters footed.checksum (altered.dropped (by omega)) (by omega)
  rw [SSTableReader.create, if_neg small, readInto_end (by omega), altered.length, refused]
  rfl

end

theorem altered_set {original : Bytes} {index : Nat} {byte : UInt8} (inside : index < original.length)
    (differs : original[index]? ≠ some byte) : Altered original (original.set index byte) index 1 where
  length := List.length_set
  outside := by
    intro other place
    exact List.getElem?_set_ne (by omega)
  differs := by
    intro same
    apply differs
    rw [← same]
    exact List.getElem?_set_self inside

/-- Corruption is refused wherever a checksum covers it: in the checksum itself, and
in any four bytes in a row of what it is the checksum of. -/
theorem corruption_refused :
    (∀ (record : WalRecord) (buffer : Bytes) (start count : Nat), (walRecordBody record).length < 2 ^ 32 →
      Altered (serializeWalRecord record) buffer start count →
      (start = 4 ∧ count = 4 ∨ 8 ≤ start ∧ start + count ≤ (serializeWalRecord record).length ∧ count ≤ 4) →
      deserializeWalRecord buffer = .error ⟨.badConfig, "checksum mismatch corrupted data found"⟩) ∧
    ∀ (file buffer : Bytes) (start count : Nat), Footed file → Altered file buffer start count →
      (start = file.length - footerSize + footerChecksumOffset ∧ count = 4 ∨
        file.length - footerSize ≤ start ∧ start + count ≤ file.length - footerSize + footerChecksumOffset ∧ count ≤ 4) →
      SSTableReader.create buffer = .error ⟨.badConfig, "invalid checksum"⟩ :=
  ⟨fun _ _ _ _ body altered place => deserialize_altered body altered place,
    fun _ _ _ _ footed altered place => create_altered footed altered place⟩

/-- A record with the last byte of its value changed, and a table with the lowest byte
of its entry count changed. -/
theorem corruption_refused_one_byte :
    deserializeWalRecord ((serializeWalRecord ⟨.putRow, 1, 1, [1], [2]⟩).set 34 3) =
        .error ⟨.badConfig, "checksum mismatch corrupted data found"⟩ ∧
      SSTableReader.create ((tableFile nominalSizing 2 [([1], ⟨[10], false, 1⟩)]).set 67 2) =
        .error ⟨.badConfig, "invalid checksum"⟩ :=
  ⟨corruption_refused.1 ⟨.putRow, 1, 1, [1], [2]⟩ _ 34 1 (by decide)
      (altered_set (by decide) (by decide +kernel)) (by decide),
    corruption_refused.2 _ _ 67 1 (footed_tableFile _ _ _) (altered_set (by decide +kernel) (by decide +kernel))
      (by decide +kernel)⟩

end Enigma
