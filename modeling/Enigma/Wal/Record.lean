import Enigma.Codec.Encoding
import Enigma.Codec.Checksum

/-! Log records as bytes: a header of body length and checksum, then the body. -/

namespace Enigma

def getRecordSize (record : WalRecord) : Nat :=
  4 + 4 + 1 + 8 + 8 + (record.key.length + 4) + (record.value.length + 4)

/-- The part of a record that its length and its checksum are about. -/
def walRecordBody (record : WalRecord) : Bytes :=
  encodeUint8 record.opType.code.toNat ++ encodeUint64 record.timestamp ++ encodeUint64 record.sequence ++
    encodeUint32 record.key.length ++ record.key ++ encodeUint32 record.value.length ++ record.value

def serializeWalRecord (record : WalRecord) : Bytes :=
  encodeUint32 (walRecordBody record).length ++ encodeUint32 (computeCrc32 (walRecordBody record)).toNat ++
    walRecordBody record

def deserializeWalRecord (buffer : Bytes) : Except Error WalRecord :=
  if buffer.length < 33 then .error ⟨.readOutOfRange, "buffer too small for WAL record"⟩
  else do
    let bodyLength ← decodeUint32 buffer 0
    let checksum ← decodeUint32 buffer 4
    if buffer.length - 8 < bodyLength then .error ⟨.readOutOfRange, "out of range"⟩
    else if checksum ≠ (computeCrc32 ((buffer.drop 8).take bodyLength)).toNat then
      .error ⟨.badConfig, "checksum mismatch corrupted data found"⟩
    else do
      let opType ← decodeUint8 buffer 8
      let timestamp ← decodeUint64 buffer 9
      let sequence ← decodeUint64 buffer 17
      let keyLen ← decodeUint32 buffer 25
      if buffer.length < 29 + keyLen then .error ⟨.readOutOfRange, "key out of range"⟩
      else do
        let key ← bytesAt buffer 29 keyLen
        let valueLen ← decodeUint32 buffer (29 + keyLen)
        if buffer.length < 29 + keyLen + 4 + valueLen then .error ⟨.readOutOfRange, "value out of range"⟩
        else do
          let value ← bytesAt buffer (29 + keyLen + 4) valueLen
          return ⟨⟨.ofNat opType⟩, timestamp, sequence, key, value⟩

theorem length_walRecordBody (record : WalRecord) :
    (walRecordBody record).length = 25 + record.key.length + record.value.length := by
  simp only [walRecordBody, List.length_append, ByteBuffer.length_encode]
  omega

/-- What the writer asserts of a serialized record. -/
theorem length_serializeWalRecord (record : WalRecord) : (serializeWalRecord record).length = getRecordSize record := by
  simp only [serializeWalRecord, List.length_append, ByteBuffer.length_encode, length_walRecordBody, getRecordSize]
  omega

/-- A record whose numbers are those of 64-bit fields, and whose size is a 32-bit
number together with its header. -/
structure WalRecord.Fits (record : WalRecord) : Prop where
  timestamp : record.timestamp < 2 ^ 64
  sequence : record.sequence < 2 ^ 64
  body : 25 + record.key.length + record.value.length ≤ 2 ^ 32 - 9

instance (record : WalRecord) : Decidable record.Fits :=
  decidable_of_iff (record.timestamp < 2 ^ 64 ∧ record.sequence < 2 ^ 64 ∧
    25 + record.key.length + record.value.length ≤ 2 ^ 32 - 9)
    ⟨fun ⟨timestamp, sequence, body⟩ => ⟨timestamp, sequence, body⟩,
      fun fits => ⟨fits.timestamp, fits.sequence, fits.body⟩⟩

/-- Reading back what was serialized. -/
theorem deserialize_serialize {record : WalRecord} (fits : record.Fits) :
    deserializeWalRecord (serializeWalRecord record) = .ok record := by
  obtain ⟨⟨code⟩, timestamp, sequence, key, value⟩ := record
  obtain ⟨timestampFits, sequenceFits, bodyFits⟩ := fits
  simp only at timestampFits sequenceFits bodyFits
  generalize content : (⟨⟨code⟩, timestamp, sequence, key, value⟩ : WalRecord) = record
  have size : (serializeWalRecord record).length = 33 + key.length + value.length := by
    rw [length_serializeWalRecord, ← content]
    simp only [getRecordSize]
    omega
  have bodySize : (walRecordBody record).length = 25 + key.length + value.length := by
    rw [length_walRecordBody, ← content]
  have here : ByteBuffer.At (serializeWalRecord record) 0 (serializeWalRecord record) := ByteBuffer.at_start _
  generalize whole : serializeWalRecord record = buffer at size here ⊢
  nth_rewrite 2 [← whole] at here
  simp only [serializeWalRecord, List.append_assoc] at here
  have atChecksum := here.after_number
  have atBody := atChecksum.after_number
  have bytes : (buffer.drop 8).take (walRecordBody record).length = walRecordBody record := by
    rw [atBody.bytes, List.take_length]
  have bodyLength : decodeUint 4 buffer 0 = .ok (walRecordBody record).length :=
    (decodeUint_at here).trans (by rw [Nat.mod_eq_of_lt (by omega)])
  have checksum : decodeUint 4 buffer 4 = .ok (computeCrc32 (walRecordBody record)).toNat :=
    (decodeUint_at atChecksum).trans (by rw [Nat.mod_eq_of_lt (UInt32.toNat_lt _)])
  nth_rewrite 1 [← content] at atBody
  simp only [walRecordBody, List.append_assoc] at atBody
  have atTimestamp := atBody.after_number
  have atSequence := atTimestamp.after_number
  have atKeyLen := atSequence.after_number
  have atKey := atKeyLen.after_number
  have atValueLen := atKey.after
  have atValue := atValueLen.after_number
  rw [← List.append_nil value] at atValue
  have readType : decodeUint 1 buffer 8 = .ok code.toNat :=
    (decodeUint_at atBody).trans (by rw [Nat.mod_eq_of_lt (UInt8.toNat_lt _)])
  have readTimestamp : decodeUint 8 buffer 9 = .ok timestamp :=
    (decodeUint_at atTimestamp).trans (by rw [Nat.mod_eq_of_lt timestampFits])
  have readSequence : decodeUint 8 buffer 17 = .ok sequence :=
    (decodeUint_at atSequence).trans (by rw [Nat.mod_eq_of_lt sequenceFits])
  have readKeyLen : decodeUint 4 buffer 25 = .ok key.length :=
    (decodeUint_at atKeyLen).trans (by rw [Nat.mod_eq_of_lt (by omega)])
  have readKey : bytesAt buffer 29 key.length = .ok key := bytesAt_at atKey
  have readValueLen : decodeUint 4 buffer (29 + key.length) = .ok value.length :=
    (decodeUint_at atValueLen).trans (by rw [Nat.mod_eq_of_lt (by omega)])
  have readValue : bytesAt buffer (29 + key.length + 4) value.length = .ok value := bytesAt_at atValue
  have large : ¬ buffer.length < 33 := by omega
  have bodyInside : ¬ buffer.length - 8 < (walRecordBody record).length := by omega
  have keyInside : ¬ buffer.length < 29 + key.length := by omega
  have valueInside : ¬ buffer.length < 29 + key.length + 4 + value.length := by omega
  simp only [deserializeWalRecord, large, bodyLength, checksum, bytes, bodyInside, readType, readTimestamp, readSequence,
    readKeyLen, readKey, readValueLen, readValue, keyInside, valueInside, bind, Except.bind, ne_eq, not_true_eq_false,
    ↓reduceIte, UInt8.ofNat_toNat]
  rw [← content]
  rfl

/-- A record that was decoded is no larger than its buffer. -/
theorem fits_of_deserialize {buffer : Bytes} {record : WalRecord} (small : buffer.length < 2 ^ 32)
    (decoded : deserializeWalRecord buffer = .ok record) : record.Fits := by
  unfold deserializeWalRecord at decoded
  split at decoded
  · cases decoded
  obtain ⟨bodyLength, _, decoded⟩ := exists_of_bind_ok decoded
  obtain ⟨checksum, _, decoded⟩ := exists_of_bind_ok decoded
  split at decoded
  · cases decoded
  split at decoded
  · cases decoded
  obtain ⟨opType, _, decoded⟩ := exists_of_bind_ok decoded
  obtain ⟨timestamp, readTimestamp, decoded⟩ := exists_of_bind_ok decoded
  obtain ⟨sequence, readSequence, decoded⟩ := exists_of_bind_ok decoded
  obtain ⟨keyLen, _, decoded⟩ := exists_of_bind_ok decoded
  split at decoded
  · cases decoded
  obtain ⟨key, readKey, decoded⟩ := exists_of_bind_ok decoded
  obtain ⟨valueLen, _, decoded⟩ := exists_of_bind_ok decoded
  split at decoded
  · cases decoded
  obtain ⟨value, readValue, decoded⟩ := exists_of_bind_ok decoded
  cases decoded
  refine ⟨decodeUint_lt readTimestamp, decodeUint_lt readSequence, ?_⟩
  have keySize := length_bytesAt readKey
  have valueSize := length_bytesAt readValue
  simp only
  omega

section

variable {buffer : Bytes}

/-- The record in the fields of a buffer. -/
def recordAt (buffer : Bytes) : WalRecord where
  opType := ⟨.ofNat (fieldAt buffer 8 1)⟩
  timestamp := fieldAt buffer 9 8
  sequence := fieldAt buffer 17 8
  key := (buffer.drop 29).take (fieldAt buffer 25 4)
  value := (buffer.drop (33 + fieldAt buffer 25 4)).take (fieldAt buffer (29 + fieldAt buffer 25 4) 4)

/-- A buffer that all the checks of decoding pass. -/
structure Decodes (buffer : Bytes) : Prop where
  body : 8 + fieldAt buffer 0 4 ≤ buffer.length
  checksum : fieldAt buffer 4 4 = (computeCrc32 ((buffer.drop 8).take (fieldAt buffer 0 4))).toNat
  value : 33 + fieldAt buffer 25 4 + fieldAt buffer (29 + fieldAt buffer 25 4) 4 ≤ buffer.length

theorem deserialize_of_decodes (decodes : Decodes buffer) : deserializeWalRecord buffer = .ok (recordAt buffer) := by
  obtain ⟨body, checksum, value⟩ := decodes
  have large : ¬ buffer.length < 33 := by omega
  have bodyInside : ¬ buffer.length - 8 < fieldAt buffer 0 4 := by omega
  have keyInside : ¬ buffer.length < 29 + fieldAt buffer 25 4 := by omega
  have valueInside : ¬ buffer.length <
      29 + fieldAt buffer 25 4 + 4 + fieldAt buffer (29 + fieldAt buffer 25 4) 4 := by omega
  have readLength : decodeUint 4 buffer 0 = .ok (fieldAt buffer 0 4) := decodeUint_inside (by omega)
  have readChecksum : decodeUint 4 buffer 4 = .ok (fieldAt buffer 4 4) := decodeUint_inside (by omega)
  have readType : decodeUint 1 buffer 8 = .ok (fieldAt buffer 8 1) := decodeUint_inside (by omega)
  have readTimestamp : decodeUint 8 buffer 9 = .ok (fieldAt buffer 9 8) := decodeUint_inside (by omega)
  have readSequence : decodeUint 8 buffer 17 = .ok (fieldAt buffer 17 8) := decodeUint_inside (by omega)
  have readKeyLen : decodeUint 4 buffer 25 = .ok (fieldAt buffer 25 4) := decodeUint_inside (by omega)
  have readKey := bytesAt_within (show 29 + fieldAt buffer 25 4 ≤ buffer.length by omega)
  have readValueLen := decodeUint_inside (show 29 + fieldAt buffer 25 4 + 4 ≤ buffer.length by omega)
  have readValue := bytesAt_within (show 29 + fieldAt buffer 25 4 + 4 +
    fieldAt buffer (29 + fieldAt buffer 25 4) 4 ≤ buffer.length by omega)
  simp only [deserializeWalRecord, large, readLength, readChecksum, bodyInside, ← checksum, readType, readTimestamp,
    readSequence, readKeyLen, readKey, readValueLen, readValue, keyInside, valueInside, bind, Except.bind, ne_eq,
    not_true_eq_false, ↓reduceIte]
  rw [recordAt, show 33 + fieldAt buffer 25 4 = 29 + fieldAt buffer 25 4 + 4 by omega]
  rfl

/-- A record whose checksum is not that of its body. -/
theorem deserialize_mismatch (large : 33 ≤ buffer.length) (body : 8 + fieldAt buffer 0 4 ≤ buffer.length)
    (mismatch : fieldAt buffer 4 4 ≠ (computeCrc32 ((buffer.drop 8).take (fieldAt buffer 0 4))).toNat) :
    deserializeWalRecord buffer = .error ⟨.badConfig, "checksum mismatch corrupted data found"⟩ := by
  have bodyInside : ¬ buffer.length - 8 < fieldAt buffer 0 4 := by omega
  have readLength : decodeUint 4 buffer 0 = .ok (fieldAt buffer 0 4) := decodeUint_inside (by omega)
  have readChecksum : decodeUint 4 buffer 4 = .ok (fieldAt buffer 4 4) := decodeUint_inside (by omega)
  simp only [deserializeWalRecord, not_lt.mpr large, readLength, readChecksum, bodyInside, bind, Except.bind, ne_eq, mismatch,
    not_false_eq_true, ↓reduceIte]

/-- The bytes of the record in a buffer stand behind the header. -/
theorem walRecordBody_recordAt
    (value : 33 + fieldAt buffer 25 4 + fieldAt buffer (29 + fieldAt buffer 25 4) 4 ≤ buffer.length) :
    walRecordBody (recordAt buffer) =
      (buffer.drop 8).take (25 + fieldAt buffer 25 4 + fieldAt buffer (29 + fieldAt buffer 25 4) 4) := by
  have keySize : (recordAt buffer).key.length = fieldAt buffer 25 4 := by
    rw [recordAt, List.length_take, List.length_drop]
    omega
  have valueSize : (recordAt buffer).value.length = fieldAt buffer (29 + fieldAt buffer 25 4) 4 := by
    rw [recordAt, List.length_take, List.length_drop]
    omega
  have code : (UInt8.ofNat (fieldAt buffer 8 1)).toNat = fieldAt buffer 8 1 := by
    rw [UInt8.toNat_ofNat']
    exact Nat.mod_eq_of_lt (fieldAt_lt buffer 8 1)
  have split : ∀ offset first rest, (buffer.drop offset).take (first + rest) =
      (buffer.drop offset).take first ++ (buffer.drop (offset + first)).take rest := by
    intro offset first rest
    rw [List.take_add, List.drop_drop]
  have codeBytes := encode_fieldAt (show 8 + 1 ≤ buffer.length by omega)
  have timestampBytes := encode_fieldAt (show 9 + 8 ≤ buffer.length by omega)
  have sequenceBytes := encode_fieldAt (show 17 + 8 ≤ buffer.length by omega)
  have keyLenBytes := encode_fieldAt (show 25 + 4 ≤ buffer.length by omega)
  have valueLenBytes := encode_fieldAt (show 29 + fieldAt buffer 25 4 + 4 ≤ buffer.length by omega)
  rw [walRecordBody, keySize, valueSize]
  simp only [recordAt, code, encodeUint8, encodeUint32, encodeUint64, codeBytes, timestampBytes, sequenceBytes, keyLenBytes,
    valueLenBytes]
  rw [show 25 + fieldAt buffer 25 4 + fieldAt buffer (29 + fieldAt buffer 25 4) 4 =
    1 + (8 + (8 + (4 + (fieldAt buffer 25 4 + (4 + fieldAt buffer (29 + fieldAt buffer 25 4) 4))))) by omega,
    split, split, split, split, split, split, show 33 + fieldAt buffer 25 4 = 29 + fieldAt buffer 25 4 + 4 by omega]
  simp only [List.append_assoc]

end

end Enigma
