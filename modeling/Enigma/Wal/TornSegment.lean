import Enigma.Wal.Segment

/-! A segment that was cut off. The reader does not ask how many bytes it got, so
what is left of a record is filled up with zeros, and only the checksum can tell. -/

namespace Enigma

section

variable {front tail : Bytes} {count offset width : Nat}

theorem fieldAt_append (inside : offset + width ≤ front.length) (tail : Bytes) :
    fieldAt (front ++ tail) offset width = fieldAt front offset width := by
  rw [fieldAt, List.drop_append_of_le_length (by omega), List.take_append_of_le_length, fieldAt]
  rw [List.length_drop]
  omega

theorem fieldAt_zeros (behind : front.length ≤ offset) :
    fieldAt (front ++ List.replicate count 0) offset width = 0 := by
  rw [fieldAt, List.drop_append, List.drop_of_length_le behind, List.nil_append, List.drop_replicate, List.take_replicate]
  exact ByteBuffer.decode_zeros _

/-- Zeros in the place of other bytes make a number smaller. -/
theorem fieldAt_zeros_le (fewer : count ≤ tail.length) :
    fieldAt (front ++ List.replicate count 0) offset width ≤ fieldAt (front ++ tail) offset width := by
  simp only [fieldAt, List.drop_append, List.take_append, List.drop_replicate, List.take_replicate,
    ByteBuffer.decode_append, ByteBuffer.decode_zeros, List.length_replicate, List.length_take, List.length_drop]
  refine le_trans ?_ (Nat.le_add_right _ _)
  refine Nat.mul_le_mul_left _ (Nat.pow_le_pow_right (by decide) ?_)
  omega

theorem fieldAt_at {buffer rest : Bytes} {value : Nat}
    (here : ByteBuffer.At buffer offset (ByteBuffer.encode width value ++ rest)) :
    fieldAt buffer offset width = value % 256 ^ width := by
  rw [fieldAt, here.bytes, List.take_left' (ByteBuffer.length_encode _ _), ByteBuffer.decode_encode]

end

/-- What the reader takes for the length of a body whose record is cut off. -/
def stumpLength (stump : Bytes) : Nat := fieldAt (stump ++ List.replicate 8 0) 0 4

/-- The buffer that the reader takes for the record. -/
def fillUp (stump : Bytes) : Bytes := stump ++ List.replicate (stumpLength stump + 8 - stump.length) 0

/-- A cut record that the reader returns: its length is that of a record, and its
checksum that of the zeros in its body. -/
structure Passes (stump : Bytes) : Prop where
  long : 25 ≤ stumpLength stump
  short : stumpLength stump + 8 < 2 ^ 32
  checksum : fieldAt (fillUp stump) 4 4 = (computeCrc32 ((fillUp stump).drop 8)).toNat

/-- A cut that the reader does not notice, and that took more from the record than
zeros. -/
def Deceptive (record : WalRecord) (cut : Nat) : Prop :=
  Passes ((serializeWalRecord record).take cut) ∧
    fillUp ((serializeWalRecord record).take cut) ≠ serializeWalRecord record

section

variable {record : WalRecord} {cut : Nat}

/-- The fields of a serialized record that say how long it is. -/
theorem fieldAt_serialize (body : (walRecordBody record).length < 2 ^ 32) :
    fieldAt (serializeWalRecord record) 0 4 = (walRecordBody record).length ∧
      fieldAt (serializeWalRecord record) 25 4 = record.key.length ∧
        fieldAt (serializeWalRecord record) (29 + record.key.length) 4 = record.value.length := by
  have bodySize := length_walRecordBody record
  have here : ByteBuffer.At (serializeWalRecord record) 0 (serializeWalRecord record) := ByteBuffer.at_start _
  generalize whole : serializeWalRecord record = buffer at here ⊢
  nth_rewrite 2 [← whole] at here
  simp only [serializeWalRecord, List.append_assoc] at here
  have atBody := here.after_number.after_number
  simp only [walRecordBody, List.append_assoc] at atBody
  have atKeyLen := atBody.after_number.after_number.after_number
  have atValueLen := atKeyLen.after_number.after
  refine ⟨(fieldAt_at here).trans ?_, (fieldAt_at atKeyLen).trans ?_, (fieldAt_at atValueLen).trans ?_⟩
  · exact Nat.mod_eq_of_lt body
  · exact Nat.mod_eq_of_lt (by omega)
  · exact Nat.mod_eq_of_lt (by omega)

theorem serialize_size (record : WalRecord) :
    (serializeWalRecord record).length = (walRecordBody record).length + 8 := by
  rw [length_serializeWalRecord, length_walRecordBody, getRecordSize]
  omega

theorem stump_length (inside : cut < (serializeWalRecord record).length) :
    ((serializeWalRecord record).take cut).length = cut := by
  rw [List.length_take]
  omega

/-- The length is read right from four bytes on, and too small at the most from fewer. -/
theorem stumpLength_le (body : (walRecordBody record).length < 2 ^ 32) (inside : cut < (serializeWalRecord record).length) :
    stumpLength ((serializeWalRecord record).take cut) ≤ (walRecordBody record).length ∧
      (4 ≤ cut → stumpLength ((serializeWalRecord record).take cut) = (walRecordBody record).length) := by
  obtain ⟨field, _, _⟩ := fieldAt_serialize body
  have size := serialize_size record
  have bodySize := length_walRecordBody record
  have length := stump_length inside
  have whole := List.take_append_drop cut (serializeWalRecord record)
  rw [← whole] at field
  have exactly : 4 ≤ cut → stumpLength ((serializeWalRecord record).take cut) = (walRecordBody record).length := by
    intro enough
    rw [stumpLength, fieldAt_append (by omega), ← field, fieldAt_append (by omega)]
  refine ⟨?_, exactly⟩
  by_cases enough : 4 ≤ cut
  · exact (exactly enough).le
  · rw [stumpLength, ← field]
    apply fieldAt_zeros_le
    rw [List.length_drop]
    omega

/-- The stump is not longer than what the reader asks for. -/
theorem stump_short (body : (walRecordBody record).length < 2 ^ 32) (inside : cut < (serializeWalRecord record).length)
    (long : 25 ≤ stumpLength ((serializeWalRecord record).take cut)) :
    cut ≤ stumpLength ((serializeWalRecord record).take cut) + 8 := by
  have size := serialize_size record
  obtain ⟨_, exactly⟩ := stumpLength_le body inside
  by_cases enough : 4 ≤ cut
  · rw [exactly enough]
    omega
  · omega

theorem length_fillUp (stump : Bytes) (short : stump.length ≤ stumpLength stump + 8) :
    (fillUp stump).length = stumpLength stump + 8 := by
  rw [fillUp, List.length_append, List.length_replicate]
  omega

theorem fieldAt_fillUp {stump : Bytes} (long : 25 ≤ stumpLength stump) : fieldAt (fillUp stump) 0 4 = stumpLength stump := by
  have taken : ∀ count, 4 ≤ stump.length + count → (stump ++ List.replicate count 0).take 4 =
      stump.take 4 ++ List.replicate (4 - stump.length) 0 := by
    intro count enough
    rw [List.take_append, List.take_replicate, min_eq_left (by omega)]
  change fieldAt (fillUp stump) 0 4 = fieldAt (stump ++ List.replicate 8 0) 0 4
  rw [fillUp, fieldAt, fieldAt, List.drop_zero, List.drop_zero, taken _ (by omega), taken _ (by omega)]

/-- What is left of a record passes all other checks once it passes that of its
checksum: with zeros for their last bytes key and value only get shorter. -/
theorem decodes_fillUp (body : (walRecordBody record).length < 2 ^ 32) (inside : cut < (serializeWalRecord record).length)
    (passes : Passes ((serializeWalRecord record).take cut)) :
    Decodes (fillUp ((serializeWalRecord record).take cut)) := by
  obtain ⟨long, short, checksum⟩ := passes
  obtain ⟨most, exactly⟩ := stumpLength_le body inside
  obtain ⟨_, keyLen, valueLen⟩ := fieldAt_serialize body
  have size := serialize_size record
  have bodySize := length_walRecordBody record
  have cutLength := stump_length inside
  have cutShort := stump_short body inside long
  have whole := List.take_append_drop cut (serializeWalRecord record)
  have tailLength : ((serializeWalRecord record).drop cut).length = (serializeWalRecord record).length - cut :=
    List.length_drop
  rw [← whole] at keyLen valueLen
  generalize (serializeWalRecord record).take cut = stump at *
  generalize (serializeWalRecord record).drop cut = tail at *
  have length := length_fillUp stump (by omega)
  have field := fieldAt_fillUp long
  have fewer : stumpLength stump + 8 - stump.length ≤ tail.length := by omega
  refine ⟨by omega, ?_, ?_⟩
  · rw [checksum, field, List.take_of_length_le]
    rw [List.length_drop]
    omega
  · rw [length]
    have keyLess : fieldAt (fillUp stump) 25 4 ≤ record.key.length := keyLen ▸ fieldAt_zeros_le fewer
    by_cases keyKept : 29 ≤ cut
    · have keySame : fieldAt (fillUp stump) 25 4 = record.key.length := by
        rw [fillUp, fieldAt_append (by omega), ← keyLen, fieldAt_append (by omega)]
      have valueLess : fieldAt (fillUp stump) (29 + record.key.length) 4 ≤ record.value.length :=
        valueLen ▸ fieldAt_zeros_le fewer
      have complete := exactly (by omega)
      rw [keySame]
      omega
    · have nothing : fieldAt (fillUp stump) (29 + fieldAt (fillUp stump) 25 4) 4 = 0 := fieldAt_zeros (by omega)
      rw [nothing]
      by_cases started : 25 < cut
      · have complete := exactly (by omega)
        omega
      · have noKey : fieldAt (fillUp stump) 25 4 = 0 := fieldAt_zeros (by omega)
        omega

/-- The record that is returned for a cut one is the right one exactly if only zeros
are missing. -/
theorem recordAt_fillUp (body : (walRecordBody record).length < 2 ^ 32) (inside : cut < (serializeWalRecord record).length)
    (passes : Passes ((serializeWalRecord record).take cut))
    (same : recordAt (fillUp ((serializeWalRecord record).take cut)) = record) :
    fillUp ((serializeWalRecord record).take cut) = serializeWalRecord record := by
  have decodes := decodes_fillUp body inside passes
  obtain ⟨most, _⟩ := stumpLength_le body inside
  have bodySize := length_walRecordBody record
  have length := length_fillUp ((serializeWalRecord record).take cut) (by
    rw [stump_length inside]
    exact stump_short body inside passes.long)
  have field := fieldAt_fillUp passes.long
  have checksum := passes.checksum
  have value := decodes.value
  have bytes := walRecordBody_recordAt value
  generalize fillUp ((serializeWalRecord record).take cut) = buffer at *
  generalize stumpLength ((serializeWalRecord record).take cut) = bodyLength at *
  have keySize : record.key.length = fieldAt buffer 25 4 := by
    rw [← same, recordAt, List.length_take, List.length_drop]
    omega
  have valueSize : record.value.length = fieldAt buffer (29 + fieldAt buffer 25 4) 4 := by
    rw [← same, recordAt, List.length_take, List.length_drop]
    omega
  have content : buffer.drop 8 = walRecordBody record := by
    rw [← same, bytes, List.take_of_length_le]
    rw [List.length_drop]
    omega
  have header : buffer.take 4 = encodeUint32 (walRecordBody record).length := by
    have number := encode_fieldAt (show 0 + 4 ≤ buffer.length by omega)
    rw [field, List.drop_zero] at number
    rw [← number, show bodyLength = (walRecordBody record).length by omega]
  have sum : (buffer.drop 4).take 4 = encodeUint32 (computeCrc32 (walRecordBody record)).toNat := by
    have number := encode_fieldAt (show 4 + 4 ≤ buffer.length by omega)
    rw [← number, checksum, content]
  calc buffer = buffer.take 4 ++ ((buffer.drop 4).take 4 ++ buffer.drop 8) := by
        rw [show 8 = 4 + 4 from rfl, ← List.drop_drop, List.take_append_drop, List.take_append_drop]
    _ = serializeWalRecord record := by rw [header, sum, content, serializeWalRecord, List.append_assoc]

end

namespace WalReader

section

variable {file stump : Bytes} {offset : Nat}

theorem readInto_stump (here : ByteBuffer.At file offset stump) (size : Nat) :
    readInto [] file size offset = stump.take size ++ List.replicate (size - stump.length) 0 := by
  rw [readInto, readFile, here.bytes, List.nil_append, List.take_replicate, min_self, List.drop_replicate, List.length_take]
  congr 2
  omega

theorem decodeUint_stump (here : ByteBuffer.At file offset stump) :
    decodeUint32 (readInto [] file 8 offset) 0 = .ok (stumpLength stump) := by
  rw [decodeUint32, decodeUint_inside (by rw [length_readInto]; decide), readInto_stump here, stumpLength]
  simp only [fieldAt, List.drop_zero, List.take_append, List.take_take, List.take_replicate, List.length_take]
  congr 4
  omega

/-- The rest of a segment that passes for a record. -/
theorem next_passes (here : ByteBuffer.At file offset stump) (passes : Passes stump)
    (short : stump.length ≤ stumpLength stump + 8) (decodes : Decodes (fillUp stump)) :
    next ⟨file, offset⟩ = (.ok (recordAt (fillUp stump)), ⟨file, offset + (stumpLength stump + 8)⟩) := by
  have something : readFile file 8 offset ≠ [] := by
    intro nothing
    rw [readFile, here.bytes, List.take_eq_nil_iff] at nothing
    have long := passes.long
    rw [nothing.resolve_left (by decide)] at long
    exact absurd long (by decide)
  simp only [next, something, decodeUint_stump here, not_lt.mpr passes.long, ↓reduceIte, Nat.mod_eq_of_lt passes.short]
  rw [readInto_stump here, List.take_of_length_le short, ← fillUp, deserialize_of_decodes decodes]

/-- Any other rest. -/
theorem next_refuses (here : ByteBuffer.At file offset stump) (refused : ¬ Passes stump)
    (short : 25 ≤ stumpLength stump → stumpLength stump + 8 < 2 ^ 32 → stump.length ≤ stumpLength stump + 8) :
    ∃ error after, next ⟨file, offset⟩ = (.error error, after) := by
  by_cases nothing : stump = []
  · subst nothing
    have ended := here.length
    rw [List.length_nil, Nat.add_zero] at ended
    exact ⟨_, _, next_end _ ended.le⟩
  · have something : readFile file 8 offset ≠ [] := by
      rw [readFile, here.bytes]
      simpa using nothing
    by_cases long : 25 ≤ stumpLength stump
    · simp only [next, something, decodeUint_stump here, not_lt.mpr long, ↓reduceIte]
      by_cases small : stumpLength stump + 8 < 2 ^ 32
      · rw [Nat.mod_eq_of_lt small, readInto_stump here, List.take_of_length_le (short long small), ← fillUp]
        have length := length_fillUp stump (short long small)
        have field := fieldAt_fillUp long
        have mismatch : fieldAt (fillUp stump) 4 4 ≠
            (computeCrc32 (((fillUp stump).drop 8).take (fieldAt (fillUp stump) 0 4))).toNat := by
          rw [field, List.take_of_length_le (by rw [List.length_drop]; omega)]
          exact fun checksum => refused ⟨long, small, checksum⟩
        exact ⟨_, _, congrArg (·, _) (deserialize_mismatch (by omega) (by omega) mismatch)⟩
      · have tiny : (readInto [] file ((stumpLength stump + 8) % 2 ^ 32) offset).length < 33 := by
          have bound : stumpLength stump < 256 ^ 4 := fieldAt_lt _ _ _
          rw [length_readInto]
          omega
        exact ⟨_, _, congrArg (·, _) (by rw [deserializeWalRecord, if_pos tiny])⟩
    · simp only [next, something, decodeUint_stump here, not_le.mp long, ↓reduceIte]
      exact ⟨_, _, rfl⟩

end

/-- The cut leads to a record that was not written: the reader gets that far, and the
record that was cut passes for another one. -/
def Deceived : List WalRecord → Nat → Prop
  | [], _ => False
  | record :: later, cut =>
    if cut < getRecordSize record then Deceptive record cut
    else (walRecordBody record).length + 8 < 2 ^ 32 ∧ Deceived later (cut - getRecordSize record)

/-- The records of a segment that is cut off come back in order, up to the first
error. -/
def ReplaysPrefix (records : List WalRecord) (cut : Nat) : Prop :=
  ∃ returned error, replayFile ((records.flatMap serializeWalRecord).take cut) = (returned, some error) ∧
    returned <+: records

/-- A record as its types hold it, with a body that fits the length field. -/
structure Writable (record : WalRecord) : Prop where
  timestamp : record.timestamp < 2 ^ 64
  sequence : record.sequence < 2 ^ 64
  body : (walRecordBody record).length < 2 ^ 32

theorem Writable.fits {record : WalRecord} (writable : Writable record)
    (short : (walRecordBody record).length + 8 < 2 ^ 32) : record.Fits := by
  refine ⟨writable.timestamp, writable.sequence, ?_⟩
  rw [length_walRecordBody] at short
  omega

section

variable {file : Bytes} {offset cut : Nat} {record : WalRecord}

theorem stump_ne_nil {stump : Bytes} (passes : Passes stump) : 0 < stump.length := by
  apply List.length_pos_iff.mpr
  rintro rfl
  exact absurd passes.long (by decide)

/-- A record of which only zeros are missing is the record itself. -/
theorem recordAt_serialize (writable : Writable record) (passes : Passes ((serializeWalRecord record).take cut))
    (inside : cut < (serializeWalRecord record).length)
    (same : fillUp ((serializeWalRecord record).take cut) = serializeWalRecord record) :
    recordAt (fillUp ((serializeWalRecord record).take cut)) = record := by
  have decoded := deserialize_of_decodes (decodes_fillUp writable.body inside passes)
  have length := length_fillUp ((serializeWalRecord record).take cut) (by
    rw [stump_length inside]
    exact stump_short writable.body inside passes.long)
  have short := passes.short
  have size := serialize_size record
  rw [same] at decoded length ⊢
  rw [deserialize_serialize (writable.fits (by omega))] at decoded
  exact (Except.ok.inj decoded).symm

/-- The end of a segment that is cut in a record. -/
theorem replay_stump (writable : Writable record) (inside : cut < (serializeWalRecord record).length)
    (here : ByteBuffer.At file offset ((serializeWalRecord record).take cut)) {remaining : Nat}
    (enough : file.length ≤ offset + remaining) :
    ∃ returned error, replay (remaining + 1) ⟨file, offset⟩ = (returned, some error) ∧
      ((returned = [] ∨ returned = [record]) ∧ ¬ Deceptive record cut ∨
        (∃ other, other ≠ record ∧ returned = [other]) ∧ Deceptive record cut) := by
  have length := stump_length inside
  by_cases passes : Passes ((serializeWalRecord record).take cut)
  · have short := stump_short writable.body inside passes.long
    have read := next_passes here passes (by omega) (decodes_fillUp writable.body inside passes)
    have ended := here.length
    have positive := stump_ne_nil passes
    obtain ⟨fewer, rfl⟩ : ∃ fewer, remaining = fewer + 1 := ⟨remaining - 1, by omega⟩
    have last := next_end ⟨file, offset + (stumpLength ((serializeWalRecord record).take cut) + 8)⟩ (by simp only; omega)
    refine ⟨[recordAt (fillUp ((serializeWalRecord record).take cut))], ⟨.errEof, "end of WAL file"⟩, ?_, ?_⟩
    · rw [replay, read]
      simp only
      rw [replay, last]
    · by_cases same : fillUp ((serializeWalRecord record).take cut) = serializeWalRecord record
      · exact .inl ⟨.inr (by rw [recordAt_serialize writable passes inside same]), fun deceptive => deceptive.2 same⟩
      · refine .inr ⟨⟨_, ?_, rfl⟩, passes, same⟩
        exact fun returned => same (recordAt_fillUp writable.body inside passes returned)
  · obtain ⟨error, after, read⟩ := next_refuses here passes (fun long _ => by
      rw [length]
      exact stump_short writable.body inside long)
    refine ⟨[], error, ?_, .inl ⟨.inl rfl, fun deceptive => passes deceptive.1⟩⟩
    rw [replay, read]

/-- A record whose size as the reader computes it is not its size. -/
theorem next_large {rest : Bytes} (writable : Writable record) (large : 2 ^ 32 ≤ (walRecordBody record).length + 8)
    (here : ByteBuffer.At file offset (serializeWalRecord record ++ rest)) :
    ∃ error after, next ⟨file, offset⟩ = (.error error, after) := by
  have size := serialize_size record
  obtain ⟨field, _, _⟩ := fieldAt_serialize writable.body
  have counted : stumpLength (serializeWalRecord record ++ rest) = (walRecordBody record).length := by
    rw [stumpLength, List.append_assoc, fieldAt_append (by omega), field]
  apply next_refuses here
  · intro passes
    have short := passes.short
    omega
  · intro _ short
    omega

/-- Wherever the segment starts in the file that the cut ends. -/
theorem replays_prefix_at {records : List WalRecord} (writable : ∀ record ∈ records, Writable record)
    (here : ByteBuffer.At file offset ((records.flatMap serializeWalRecord).take cut)) {remaining : Nat}
    (enough : file.length ≤ offset + remaining) :
    (∃ returned error, replay (remaining + 1) ⟨file, offset⟩ = (returned, some error) ∧ returned <+: records) ↔
      ¬ Deceived records cut := by
  induction records generalizing offset cut remaining with
  | nil =>
    have ended := here.length
    simp only [List.flatMap_nil, List.take_nil, List.length_nil, Nat.add_zero] at ended
    refine ⟨fun _ => id, fun _ => ⟨[], ⟨.errEof, "end of WAL file"⟩, ?_, List.nil_prefix⟩⟩
    rw [replay, next_end _ ended.le]
  | cons record later ih =>
    have fitting := writable record (List.mem_cons_self ..)
    have sizes := length_serializeWalRecord record
    rw [List.flatMap_cons] at here
    by_cases within : cut < getRecordSize record
    · rw [List.take_append_of_le_length (by omega)] at here
      rw [Deceived, if_pos within]
      obtain ⟨returned, error, replayed, outcome⟩ := replay_stump fitting (by omega) here enough
      rw [replayed]
      rcases outcome with ⟨known, honest⟩ | ⟨⟨other, differs, rfl⟩, deceptive⟩
      · refine ⟨fun _ => honest, fun _ => ⟨returned, error, rfl, ?_⟩⟩
        rcases known with rfl | rfl
        · exact List.nil_prefix
        · exact List.prefix_cons_iff.mpr (.inr ⟨[], rfl, List.nil_prefix⟩)
      · refine ⟨?_, fun honest => absurd deceptive honest⟩
        rintro ⟨_, _, same, contained⟩
        obtain ⟨rfl, _⟩ := Prod.mk.inj same
        exact absurd (List.cons_prefix_cons.mp contained).1 differs
    · rw [List.take_append, List.take_of_length_le (by omega), sizes] at here
      rw [Deceived, if_neg within]
      by_cases short : (walRecordBody record).length + 8 < 2 ^ 32
      · have read := next_at (fitting.fits short) here
        have after := here.after
        have inside := here.length
        rw [List.length_append] at inside
        have positive : 0 < (serializeWalRecord record).length := by rw [serialize_size]; omega
        obtain ⟨fewer, rfl⟩ : ∃ fewer, remaining = fewer + 1 := ⟨remaining - 1, by omega⟩
        have left : file.length ≤ offset + (serializeWalRecord record).length + fewer := by omega
        have step := ih (fun other member => writable other (List.mem_cons_of_mem _ member)) after left
        rw [and_iff_right short, ← step, replay, read]
        simp only [Prod.mk.injEq]
        constructor
        · rintro ⟨_, error, ⟨rfl, failed⟩, contained⟩
          exact ⟨_, error, Prod.ext rfl failed, (List.cons_prefix_cons.mp contained).2⟩
        · rintro ⟨returned, error, replayed, contained⟩
          refine ⟨record :: returned, error, ⟨?_, ?_⟩, List.cons_prefix_cons.mpr ⟨rfl, contained⟩⟩
          · rw [replayed]
          · rw [replayed]
      · obtain ⟨error, after, read⟩ := next_large fitting (by omega) here
        refine ⟨fun _ reached => short reached.1, fun _ => ⟨[], error, ?_, List.nil_prefix⟩⟩
        rw [replay, read]

end

end WalReader

open WalReader

/-- A record at the front whose size wraps to less than a header is refused, and nothing is read behind it. -/
theorem readBack_large {record : WalRecord} {later : List WalRecord} (writable : Writable record)
    (large : 2 ^ 32 ≤ (walRecordBody record).length + 8) : (readBack (record :: later)).records = [] := by
  have here : ByteBuffer.At ((record :: later).flatMap serializeWalRecord) 0
      (serializeWalRecord record ++ later.flatMap serializeWalRecord) := by
    rw [List.flatMap_cons]
    exact ByteBuffer.at_start _
  obtain ⟨error, after, read⟩ := next_large writable large here
  rw [readBack_records, replayFile, replay, WalReader.create, read]

/-- A torn segment replays to a prefix exactly if the cut does not deceive the reader. -/
theorem torn_segment_replays_prefix_iff {records : List WalRecord} (writable : ∀ record ∈ records, Writable record)
    (cut : Nat) : ReplaysPrefix records cut ↔ ¬ Deceived records cut :=
  replays_prefix_at writable (ByteBuffer.at_start _) (Nat.zero_add _).ge

/-- Two records, the second one cut by five bytes. -/
theorem torn_segment_replays_prefix_two_records :
    ReplaysPrefix [⟨.putRow, 7, 1, [1], [10]⟩, ⟨.putRow, 8, 2, [2], [5, 4, 3, 2, 1]⟩] 69 := by
  refine (torn_segment_replays_prefix_iff ?_ 69).mpr ?_
  · intro record member
    rcases List.mem_cons.mp member with rfl | member
    · exact ⟨by decide, by decide, by decide⟩
    · cases List.mem_singleton.mp member
      exact ⟨by decide, by decide, by decide⟩
  · rintro ⟨_, deceptive⟩
    exact absurd deceptive.1.checksum (by decide +kernel)

/-- A value that is a multiple of the polynomial of the checksum: five zeros in its
place have the same checksum. -/
def polynomialRecord : WalRecord := ⟨.putRow, 7, 1, [107], [1, 3, 131, 107, 242]⟩

/-- Cut by the five bytes of its value, the record comes back with zeros for it. -/
theorem torn_segment_returns_zeros : ¬ ReplaysPrefix [polynomialRecord] 34 := by
  rintro ⟨returned, error, replayed, contained⟩
  have zeros : replayFile ((serializeWalRecord polynomialRecord ++ []).take 34) =
      ([⟨.putRow, 7, 1, [107], [0, 0, 0, 0, 0]⟩], some ⟨.errEof, "end of WAL file"⟩) := by
    decide +kernel
  obtain ⟨rfl, _⟩ := Prod.mk.inj (zeros.symm.trans replayed)
  exact absurd (List.cons_prefix_cons.mp contained).1 (by decide)

end Enigma
