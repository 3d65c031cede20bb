import Enigma.Wal.Record

/-! A log segment as bytes. The writer appends records and goes on after a failed
append; the reader follows the lengths that it finds and stops at the first record
that it cannot take. -/

namespace Enigma

/-- One call of `WalWriter::append`. A failed one has written some of the record's
bytes, but not all. -/
structure WalAppend where
  record : WalRecord
  failedAfter : Option (Fin (getRecordSize record))

namespace WalWriter

/-- The segment after a call, and what the call returns. -/
def append (segment : Bytes) (call : WalAppend) : Bytes × Except Error Unit :=
  let serialized := serializeWalRecord call.record
  match call.failedAfter with
  | none => (segment ++ serialized, .ok ())
  | some written => (segment ++ serialized.take written, .error ⟨.writeErr, "Input/output error"⟩)

/-- The segment after some calls. -/
def write (segment : Bytes) (calls : List WalAppend) : Bytes :=
  calls.foldl (fun segment call => (append segment call).1) segment

end WalWriter

structure WalReader where
  file : Bytes
  offset : Nat

namespace WalReader

def create (file : Bytes) : WalReader := ⟨file, 0⟩

/-- Lengths are 32-bit numbers, and so is the sum of a length and the header's
size. -/
def next (reader : WalReader) : Except Error WalRecord × WalReader :=
  if readFile reader.file 8 reader.offset = [] then (.error ⟨.errEof, "end of WAL file"⟩, reader)
  else
    match decodeUint32 (readInto [] reader.file 8 reader.offset) 0 with
    | .error error => (.error error, reader)
    | .ok bodyLength =>
      if bodyLength < 25 then (.error ⟨.errEof, "wal reader encountered eof"⟩, reader)
      else
        let size := (bodyLength + 8) % 2 ^ 32
        (deserializeWalRecord (readInto [] reader.file size reader.offset), { reader with offset := reader.offset + size })

/-- What so many calls of `next` return. -/
def results : Nat → WalReader → List (Except Error WalRecord)
  | 0, _ => []
  | count + 1, reader => reader.next.1 :: results count reader.next.2

/-- The loop of `recover` over a segment: the records up to the first error, and
that error unless the bound on the steps is too low. -/
def replay : Nat → WalReader → List WalRecord × Option Error
  | 0, _ => ([], none)
  | remaining + 1, reader =>
    match reader.next with
    | (.error error, _) => ([], some error)
    | (.ok record, after) =>
      let (later, error) := replay remaining after
      (record :: later, error)

/-- The whole loop. Each record takes more than one byte of the file. -/
def replayFile (file : Bytes) : List WalRecord × Option Error := replay (file.length + 1) (.create file)

section

variable {reader : WalReader} {file : Bytes} {offset : Nat}

theorem next_end (reader : WalReader) (ended : reader.file.length ≤ reader.offset) :
    reader.next = (.error ⟨.errEof, "end of WAL file"⟩, reader) := by
  have nothing : readFile reader.file 8 reader.offset = [] := by simp [readFile, List.drop_of_length_le ended]
  simp only [next, nothing, ↓reduceIte]

/-- A record that stands where the reader is. -/
theorem next_at {record : WalRecord} {rest : Bytes} (fits : record.Fits)
    (here : ByteBuffer.At file offset (serializeWalRecord record ++ rest)) :
    next ⟨file, offset⟩ = (.ok record, ⟨file, offset + (serializeWalRecord record).length⟩) := by
  have body := fits.body
  have bodySize := length_walRecordBody record
  have size : (serializeWalRecord record).length = (walRecordBody record).length + 8 := by
    rw [length_serializeWalRecord, bodySize, getRecordSize]
    omega
  have whole := readInto_at [] here
  have header : ∃ later : Bytes, readInto [] file 8 offset =
      encodeUint32 (walRecordBody record).length ++ later := by
    refine ⟨encodeUint32 (computeCrc32 (walRecordBody record)).toNat, ?_⟩
    have split : serializeWalRecord record ++ rest = (encodeUint32 (walRecordBody record).length ++
        encodeUint32 (computeCrc32 (walRecordBody record)).toNat) ++ (walRecordBody record ++ rest) := by
      simp only [serializeWalRecord, List.append_assoc]
    rw [split] at here
    have read := readInto_at [] here
    rwa [List.length_append, ByteBuffer.length_encode, ByteBuffer.length_encode] at read
  obtain ⟨later, header⟩ := header
  have bodyLength : decodeUint 4 (readInto [] file 8 offset) 0 = .ok (walRecordBody record).length := by
    rw [header]
    exact (decodeUint_at (ByteBuffer.at_start _)).trans (by rw [Nat.mod_eq_of_lt (by omega)])
  have something : readFile file 8 offset ≠ [] := by
    have inside := here.length
    rw [List.length_append] at inside
    intro nothing
    have none := congrArg List.length nothing
    simp only [readFile, List.length_take, List.length_drop, List.length_nil] at none
    omega
  have long : ¬ (walRecordBody record).length < 25 := by omega
  have stays : ((walRecordBody record).length + 8) % 2 ^ 32 = (serializeWalRecord record).length := by
    rw [Nat.mod_eq_of_lt (by omega), size]
  simp only [next, something, bodyLength, long, ↓reduceIte, stays, whole, deserialize_serialize fits]

/-- A record that is returned was read inside the file, and takes the reader on. -/
theorem next_advances {record : WalRecord} {after : WalReader} (read : reader.next = (.ok record, after)) :
    reader.offset < reader.file.length ∧ after.file = reader.file ∧ reader.offset < after.offset := by
  by_cases ended : reader.file.length ≤ reader.offset
  · rw [next_end reader ended] at read
    cases read
  · refine ⟨by omega, ?_⟩
    simp only [next] at read
    split at read
    · cases read
    · split at read
      · cases read
      · rename_i bodyLength _
        split at read
        · cases read
        · obtain ⟨taken, moved⟩ := Prod.mk.inj read
          subst moved
          refine ⟨rfl, ?_⟩
          -- a buffer of no bytes is not a record
          have large : ¬ (readInto [] reader.file ((bodyLength + 8) % 2 ^ 32) reader.offset).length < 33 := by
            intro short
            rw [deserializeWalRecord, if_pos short] at taken
            cases taken
          rw [length_readInto] at large
          change reader.offset < reader.offset + (bodyLength + 8) % 2 ^ 32
          omega

theorem next_fits {reader after : WalReader} {record : WalRecord} (read : reader.next = (.ok record, after)) :
    record.Fits := by
  simp only [next] at read
  split at read
  · cases read
  split at read
  · cases read
  split at read
  · cases read
  obtain ⟨taken, _⟩ := Prod.mk.inj read
  refine fits_of_deserialize ?_ taken
  rw [length_readInto]
  exact Nat.mod_lt _ (by decide)

theorem replay_fits (remaining : Nat) (reader : WalReader) : ∀ record ∈ (replay remaining reader).1, record.Fits := by
  induction remaining generalizing reader with
  | zero => simp [replay]
  | succ remaining ih =>
    intro record member
    rw [replay] at member
    cases read : reader.next with
    | mk answer after =>
      rw [read] at member
      cases answer with
      | error error => simp at member
      | ok first =>
        rcases List.mem_cons.mp member with rfl | later
        · exact next_fits read
        · exact ih after record later

/-- With a step for each byte that is left, and one more, the loop comes to an
error. -/
theorem replay_ends (reader : WalReader) (remaining : Nat) (enough : reader.file.length ≤ reader.offset + remaining) :
    ∃ records error, replay (remaining + 1) reader = (records, some error) := by
  induction remaining generalizing reader with
  | zero =>
    rw [replay, next_end reader enough]
    exact ⟨[], _, rfl⟩
  | succ remaining ih =>
    cases read : reader.next with
    | mk answer after =>
      cases answer with
      | error error => exact ⟨[], error, by rw [replay, read]⟩
      | ok record =>
        obtain ⟨_, same, further⟩ := next_advances read
        have enough : after.file.length ≤ after.offset + remaining := by
          rw [same]
          omega
        obtain ⟨records, error, later⟩ := ih after enough
        exact ⟨record :: records, error, by rw [replay, read]; simp only [later]⟩

/-- Whole records in front of the reader are returned first. -/
theorem replay_records {records : List WalRecord} {rest : Bytes} (fits : ∀ record ∈ records, record.Fits)
    (here : ByteBuffer.At file offset (records.flatMap serializeWalRecord ++ rest)) (remaining : Nat) :
    replay (records.length + remaining) ⟨file, offset⟩ =
      (records ++ (replay remaining ⟨file, offset + (records.flatMap serializeWalRecord).length⟩).1,
        (replay remaining ⟨file, offset + (records.flatMap serializeWalRecord).length⟩).2) := by
  induction records generalizing offset with
  | nil => simp
  | cons record later ih =>
    rw [List.flatMap_cons, List.append_assoc] at here
    have read := next_at (fits record (by simp)) here
    have after := ih (fun other member => fits other (by simp [member])) here.after
    rw [List.length_cons, Nat.add_right_comm, replay, read]
    simp only [after, List.flatMap_cons, List.length_append, Nat.add_assoc, List.cons_append]

theorem results_records {records : List WalRecord} {rest : Bytes} (fits : ∀ record ∈ records, record.Fits)
    (here : ByteBuffer.At file offset (records.flatMap serializeWalRecord ++ rest)) (further : Nat) :
    results (records.length + further) ⟨file, offset⟩ =
      records.map .ok ++ results further ⟨file, offset + (records.flatMap serializeWalRecord).length⟩ := by
  induction records generalizing offset with
  | nil => simp
  | cons record later ih =>
    rw [List.flatMap_cons, List.append_assoc] at here
    have read := next_at (fits record (by simp)) here
    have after := ih (fun other member => fits other (by simp [member])) here.after
    rw [List.length_cons, Nat.add_right_comm, results, read]
    simp only [after, List.flatMap_cons, List.length_append, Nat.add_assoc, List.map_cons, List.cons_append]

/-- A record takes at least a byte. -/
theorem records_count (records : List WalRecord) : records.length ≤ (records.flatMap serializeWalRecord).length := by
  induction records with
  | nil => simp
  | cons record later ih =>
    rw [List.flatMap_cons, List.length_append, length_serializeWalRecord, getRecordSize, List.length_cons]
    omega

theorem results_end (reader : WalReader) (ended : reader.file.length ≤ reader.offset) (count : Nat) :
    results count reader = List.replicate count (.error ⟨.errEof, "end of WAL file"⟩) := by
  induction count with
  | zero => rfl
  | succ count ih => rw [results, next_end reader ended, ih, List.replicate_succ]

end

end WalReader

open WalReader

theorem write_eq (calls : List WalAppend) (segment : Bytes) : WalWriter.write segment calls =
    segment ++ calls.flatMap fun call => (WalWriter.append [] call).1 := by
  induction calls generalizing segment with
  | nil => simp [WalWriter.write]
  | cons call later ih =>
    have step : (WalWriter.append segment call).1 = segment ++ (WalWriter.append [] call).1 := by
      simp only [WalWriter.append]
      split <;> simp
    rw [WalWriter.write, List.foldl_cons, ← WalWriter.write, ih, step, List.flatMap_cons, List.append_assoc]

/-- Reading a segment returns the records that were appended to it, and then the
end of the file as often as one asks. -/
theorem replay_undoes_append {records : List WalRecord} (fits : ∀ record ∈ records, record.Fits) (further : Nat) :
    results (records.length + further) (.create (WalWriter.write [] (records.map fun record => ⟨record, none⟩))) =
      records.map .ok ++ List.replicate further (.error ⟨.errEof, "end of WAL file"⟩) := by
  have segment : WalWriter.write [] (records.map fun record => ⟨record, none⟩) =
      records.flatMap serializeWalRecord := by
    rw [write_eq, List.nil_append, List.flatMap_map]
    rfl
  have here : ByteBuffer.At (records.flatMap serializeWalRecord) 0 (records.flatMap serializeWalRecord ++ []) := by
    rw [List.append_nil]
    exact ByteBuffer.at_start _
  rw [segment, WalReader.create, results_records fits here, results_end _ (by simp)]

/-- A put, and a removal of the empty key. -/
theorem replay_undoes_append_two_records :
    results 3 (.create (WalWriter.write [] [⟨⟨.putRow, 7, 1, [1], [10]⟩, none⟩, ⟨⟨.deleteRow, 8, 2, [], []⟩, none⟩])) =
      [.ok ⟨.putRow, 7, 1, [1], [10]⟩, .ok ⟨.deleteRow, 8, 2, [], []⟩, .error ⟨.errEof, "end of WAL file"⟩] := by
  have fits : ∀ record ∈ ([⟨.putRow, 7, 1, [1], [10]⟩, ⟨.deleteRow, 8, 2, [], []⟩] : List WalRecord), record.Fits := by
    decide
  exact replay_undoes_append fits 1

/-- What the loop of `recover` gets out of a segment. -/
structure ReadBack where
  records : List WalRecord
  /-- The reads of the call that ends the loop: one for the header, and one more for
  a record that is refused. -/
  lastReads : Nat
  deriving DecidableEq

/-- The loop over a segment to which these records were appended. -/
def readBack (appended : List WalRecord) : ReadBack :=
  match replayFile (appended.flatMap serializeWalRecord) with
  | (records, some error) => ⟨records, if error.code = .errEof then 1 else 2⟩
  | (records, none) => ⟨records, 1⟩

theorem readBack_records (appended : List WalRecord) :
    (readBack appended).records = (replayFile (appended.flatMap serializeWalRecord)).1 := by
  unfold readBack
  split <;> simp only [*]

theorem readBack_fits (appended : List WalRecord) : ∀ record ∈ (readBack appended).records, record.Fits := by
  rw [readBack_records]
  exact replay_fits _ _

/-- Records that fit are all read, and then the end of the file. -/
theorem readBack_of_fits {appended : List WalRecord} (fits : ∀ record ∈ appended, record.Fits) :
    readBack appended = ⟨appended, 1⟩ := by
  have here : ByteBuffer.At (appended.flatMap serializeWalRecord) 0 (appended.flatMap serializeWalRecord ++ []) := by
    rw [List.append_nil]
    exact ByteBuffer.at_start _
  have few := records_count appended
  obtain ⟨left, enough⟩ := Nat.exists_eq_add_of_le few
  have whole := replay_records fits here (left + 1)
  rw [replay, next_end _ (by simp)] at whole
  rw [← Nat.add_assoc, ← enough] at whole
  rw [readBack, replayFile, WalReader.create, whole]
  simp

/-- A segment comes back whole exactly when its records fit. -/
theorem readBack_records_iff (appended : List WalRecord) :
    (readBack appended).records = appended ↔ ∀ record ∈ appended, record.Fits :=
  ⟨fun same => same ▸ readBack_fits appended, fun fits => by rw [readBack_of_fits fits]⟩

/-- The records whose append returned ok. -/
def acknowledged (calls : List WalAppend) : List WalRecord :=
  (calls.filter fun call => call.failedAfter.isNone).map WalAppend.record

/-- The replay of the segment comes to an error, and before it to every acknowledged
record in its turn. -/
def ReturnsAcknowledged (calls : List WalAppend) : Prop :=
  ∃ records error, replayFile (WalWriter.write [] calls) = (records, some error) ∧ (acknowledged calls).Sublist records

/-- A call that leaves no part of a record behind. -/
def WalAppend.LeavesNoPart (call : WalAppend) : Prop :=
  match call.failedAfter with
  | none => True
  | some written => written.val = 0

/-- No call succeeds behind one that left a part of a record. -/
def NoneBehindPart (calls : List WalAppend) : Prop :=
  calls.Pairwise fun earlier later => later.failedAfter = none → earlier.LeavesNoPart

/-- The acknowledged records stand at the start of the segment. -/
theorem write_acknowledged {calls : List WalAppend} (behind : NoneBehindPart calls) :
    ∃ rest, WalWriter.write [] calls = (acknowledged calls).flatMap serializeWalRecord ++ rest := by
  simp only [write_eq, List.nil_append]
  induction calls with
  | nil => exact ⟨[], rfl⟩
  | cons call later ih =>
    obtain ⟨first, others⟩ := List.pairwise_cons.mp behind
    obtain ⟨rest, same⟩ := ih others
    obtain ⟨record, failedAfter⟩ := call
    cases failedAfter with
    | none =>
      refine ⟨rest, ?_⟩
      rw [List.flatMap_cons, same, ← List.append_assoc]
      rfl
    | some written =>
      by_cases nothing : written.val = 0
      · refine ⟨rest, ?_⟩
        rw [List.flatMap_cons, same]
        simp [WalWriter.append, nothing, acknowledged]
      · have failed : later.filter (fun call => call.failedAfter.isNone) = [] := by
          apply List.filter_eq_nil_iff.mpr
          intro other member succeeded
          exact nothing (first other member (Option.isNone_iff_eq_none.mp succeeded))
        exact ⟨_, by simp [acknowledged, failed]; rfl⟩

/-- Acknowledged records survive failed appends behind which none succeeds. -/
theorem acknowledged_records_survive {calls : List WalAppend} (fits : ∀ record ∈ acknowledged calls, record.Fits)
    (behind : NoneBehindPart calls) : ReturnsAcknowledged calls := by
  obtain ⟨rest, segment⟩ := write_acknowledged behind
  have here : ByteBuffer.At (WalWriter.write [] calls) 0
      ((acknowledged calls).flatMap serializeWalRecord ++ rest) := by
    rw [← segment]
    exact ByteBuffer.at_start _
  have few : (acknowledged calls).length ≤ (WalWriter.write [] calls).length := by
    rw [segment, List.length_append]
    exact (records_count _).trans (Nat.le_add_right _ _)
  obtain ⟨records, error, ends⟩ := replay_ends (.create (WalWriter.write [] calls))
    (WalWriter.write [] calls).length (by simp [WalReader.create])
  refine ⟨records, error, ends, ?_⟩
  have front := replay_records fits here ((WalWriter.write [] calls).length + 1 - (acknowledged calls).length)
  rw [show (acknowledged calls).length + ((WalWriter.write [] calls).length + 1 - (acknowledged calls).length) =
    (WalWriter.write [] calls).length + 1 by omega] at front
  rw [WalReader.create, front] at ends
  obtain ⟨same, _⟩ := Prod.mk.inj ends
  rw [← same]
  exact List.sublist_append_left _ _

/-- A second append fails after one byte. -/
theorem acknowledged_records_survive_torn_end :
    ReturnsAcknowledged [⟨⟨.putRow, 7, 1, [1], [10]⟩, none⟩, ⟨⟨.putRow, 8, 2, [2], [20]⟩, some ⟨1, by decide⟩⟩] :=
  acknowledged_records_survive (by decide) (by
    refine List.pairwise_cons.mpr ⟨?_, List.pairwise_singleton _ _⟩
    exact fun _ _ _ => trivial)

/-- One byte of a failed append shifts all that comes behind it: the reader takes
the high bytes of the next length for a whole one and stops. -/
theorem torn_record_hides_later_one :
    ¬ ReturnsAcknowledged [⟨⟨.putRow, 7, 1, [1], [10]⟩, some ⟨1, by decide⟩⟩, ⟨⟨.putRow, 8, 2, [2], [20]⟩, none⟩] := by
  rintro ⟨records, error, replayed, contained⟩
  have nothing : replayFile (WalWriter.write []
      [⟨⟨.putRow, 7, 1, [1], [10]⟩, some ⟨1, by decide⟩⟩, ⟨⟨.putRow, 8, 2, [2], [20]⟩, none⟩]) =
        ([], some ⟨.errEof, "wal reader encountered eof"⟩) := by
    decide +kernel
  rw [nothing] at replayed
  obtain ⟨none, _⟩ := Prod.mk.inj replayed
  subst none
  cases List.sublist_nil.mp contained

end Enigma
