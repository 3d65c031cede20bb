import Enigma.Wal.Record

/-! Which bytes of a buffer decoding a record looks at. Key and value are held
against the buffer, not against the body that the checksum covers, and the length of
the value against neither. -/

namespace Enigma

/-- Some bytes in a row. -/
structure Span where
  offset : Nat
  count : Nat
  deriving DecidableEq

/-- A computation, with the spans of a buffer that it looked at. -/
structure Inspection (α : Type) where
  spans : List Span
  outcome : Except Error α

namespace Inspection

variable {α β : Type}

def refuse (error : Error) : Inspection α := ⟨[], .error error⟩

def andThen (first : Inspection α) (next : α → Inspection β) : Inspection β :=
  match first.outcome with
  | .ok value => ⟨first.spans ++ (next value).spans, (next value).outcome⟩
  | .error error => ⟨first.spans, .error error⟩

instance instMonadInspection : Monad Inspection where
  pure value := ⟨[], .ok value⟩
  bind := andThen

/-- The number in a field of the buffer. -/
def number (width : Nat) (buffer : Bytes) (offset : Nat) : Inspection Nat :=
  ⟨[⟨offset, width⟩], decodeUint width buffer offset⟩

def bytes (buffer : Bytes) (offset length : Nat) : Inspection Bytes :=
  ⟨[⟨offset, length⟩], bytesAt buffer offset length⟩

def Inspects (inspection : Inspection α) (index : Nat) : Prop :=
  ∃ span ∈ inspection.spans, span.offset ≤ index ∧ index < span.offset + span.count

/-- No byte at the limit or behind it is looked at. -/
def Below (inspection : Inspection α) (limit : Nat) : Prop := ∀ index, inspection.Inspects index → index < limit

theorem below_iff (inspection : Inspection α) (limit : Nat) :
    inspection.Below limit ↔ ∀ span ∈ inspection.spans, span.count = 0 ∨ span.offset + span.count ≤ limit := by
  constructor
  · intro below span member
    rcases Nat.eq_zero_or_pos span.count with none | some
    · exact .inl none
    · have last := below (span.offset + span.count - 1) ⟨span, member, by omega, by omega⟩
      exact .inr (by omega)
  · rintro spans index ⟨span, member, after, before⟩
    have limited := spans span member
    omega

theorem outcome_bind (first : Inspection α) (next : α → Inspection β) :
    (first >>= next).outcome = first.outcome >>= fun value => (next value).outcome := by
  simp only [bind, andThen]
  cases first.outcome with
  | error error => rfl
  | ok value => rfl

/-- A computation that looks at a span first. -/
def after (span : Span) (later : Inspection α) : Inspection α := ⟨span :: later.spans, later.outcome⟩

@[simp] theorem spans_after (span : Span) (later : Inspection α) : (later.after span).spans = span :: later.spans := rfl

@[simp] theorem outcome_after (span : Span) (later : Inspection α) : (later.after span).outcome = later.outcome := rfl

@[simp] theorem spans_refuse (error : Error) : (refuse error : Inspection α).spans = [] := rfl

@[simp] theorem outcome_refuse (error : Error) : (refuse error : Inspection α).outcome = .error error := rfl

theorem bind_inspected {span : Span} {outcome : Except Error α} {value : α} (ok : outcome = .ok value)
    (next : α → Inspection β) : (⟨[span], outcome⟩ : Inspection α) >>= next = (next value).after span := by
  subst ok
  rfl

/-- What is looked at first is looked at. -/
theorem spans_subset_bind (first : Inspection α) (next : α → Inspection β) :
    first.spans ⊆ (first >>= next).spans := by
  simp only [bind, andThen]
  cases first.outcome with
  | error error => exact List.Subset.refl _
  | ok value => exact List.subset_append_left _ _

end Inspection

open Inspection in
/-- `deserialize_wal_record` on the first bytes of a buffer. -/
def inspectWalRecord (buffer : Bytes) (length : Nat) : Inspection WalRecord :=
  if length < 33 then refuse ⟨.readOutOfRange, "buffer too small for WAL record"⟩
  else do
    let bodyLength ← number 4 buffer 0
    let checksum ← number 4 buffer 4
    if length - 8 < bodyLength then refuse ⟨.readOutOfRange, "out of range"⟩
    else do
      let body ← bytes buffer 8 bodyLength
      if checksum ≠ (computeCrc32 body).toNat then refuse ⟨.badConfig, "checksum mismatch corrupted data found"⟩
      else do
        let opType ← number 1 buffer 8
        let timestamp ← number 8 buffer 9
        let sequence ← number 8 buffer 17
        let keyLen ← number 4 buffer 25
        if length < 29 + keyLen then refuse ⟨.readOutOfRange, "key out of range"⟩
        else do
          let key ← bytes buffer 29 keyLen
          let valueLen ← number 4 buffer (29 + keyLen)
          if length < 29 + keyLen + 4 + valueLen then refuse ⟨.readOutOfRange, "value out of range"⟩
          else do
            let value ← bytes buffer (29 + keyLen + 4) valueLen
            return ⟨⟨.ofNat opType⟩, timestamp, sequence, key, value⟩

/-- On a whole buffer the outcome is that of decoding it. -/
theorem outcome_inspectWalRecord (buffer : Bytes) :
    (inspectWalRecord buffer buffer.length).outcome = deserializeWalRecord buffer := by
  rw [inspectWalRecord, deserializeWalRecord]
  split
  · rfl
  · rw [Inspection.outcome_bind]
    refine congrArg _ (funext fun bodyLength => ?_)
    rw [Inspection.outcome_bind]
    refine congrArg _ (funext fun checksum => ?_)
    split
    · rfl
    · rw [Inspection.outcome_bind, Inspection.bytes, bytesAt_within (by omega)]
      change Inspection.outcome (if _ then _ else _) = _
      split
      · rfl
      · simp only [Inspection.outcome_bind, Inspection.number]
        refine congrArg _ (funext fun opType => congrArg _ (funext fun timestamp => congrArg _ (funext fun sequence =>
          congrArg _ (funext fun keyLen => ?_))))
        split
        · rfl
        · simp only [Inspection.outcome_bind, Inspection.bytes]
          refine congrArg _ (funext fun key => congrArg _ (funext fun valueLen => ?_))
          split
          · rfl
          · exact Inspection.outcome_bind _ _

/-- Decoding looks at no byte behind the length, and a record that it returns comes
from the body alone. -/
structure StaysInside (buffer : Bytes) (length : Nat) : Prop where
  within : (inspectWalRecord buffer length).Below length
  covered : ∀ record, (inspectWalRecord buffer length).outcome = .ok record →
    (inspectWalRecord buffer length).Below (8 + fieldAt buffer 0 4)

/-- The buffers that the checks up to the key refuse. -/
def RefusedEarly (buffer : Bytes) (length : Nat) : Prop :=
  length < 33 ∨ length < 8 + fieldAt buffer 0 4 ∨
    fieldAt buffer 4 4 ≠ (computeCrc32 ((buffer.drop 8).take (fieldAt buffer 0 4))).toNat ∨
    length < 29 + fieldAt buffer 25 4

/-- The length of the value ends inside, and then the value is refused or ends with
the body at the latest. -/
def EndsInside (buffer : Bytes) (length : Nat) : Prop :=
  33 + fieldAt buffer 25 4 ≤ length ∧
    (length < 33 + fieldAt buffer 25 4 + fieldAt buffer (29 + fieldAt buffer 25 4) 4 ∨
      33 + fieldAt buffer 25 4 + fieldAt buffer (29 + fieldAt buffer 25 4) 4 ≤ 8 + fieldAt buffer 0 4)

/-- What is looked at up to the key. -/
def fixedSpans (bodyLength keyLen : Nat) : List Span :=
  [⟨0, 4⟩, ⟨4, 4⟩, ⟨8, bodyLength⟩, ⟨8, 1⟩, ⟨9, 8⟩, ⟨17, 8⟩, ⟨25, 4⟩, ⟨29, keyLen⟩]

/-- The last part of decoding a record. -/
def inspectValue (buffer : Bytes) (length keyLen : Nat) (record : Bytes → WalRecord) : Inspection WalRecord := do
  let valueLen ← Inspection.number 4 buffer (29 + keyLen)
  if length < 29 + keyLen + 4 + valueLen then .refuse ⟨.readOutOfRange, "value out of range"⟩
  else do
    let value ← Inspection.bytes buffer (29 + keyLen + 4) valueLen
    return record value

section

variable {buffer : Bytes} {length : Nat}

theorem bind_number {β : Type} {offset width : Nat} (inside : offset + width ≤ buffer.length)
    (next : Nat → Inspection β) : Inspection.number width buffer offset >>= next =
      (next (fieldAt buffer offset width)).after ⟨offset, width⟩ :=
  Inspection.bind_inspected (decodeUint_inside inside) next

theorem bind_bytes {β : Type} {offset count : Nat} (inside : offset + count ≤ buffer.length)
    (next : Bytes → Inspection β) : Inspection.bytes buffer offset count >>= next =
      (next ((buffer.drop offset).take count)).after ⟨offset, count⟩ :=
  Inspection.bind_inspected (bytesAt_within inside) next

/-- A buffer that is refused early is refused inside. -/
theorem staysInside_of_refused (inside : length ≤ buffer.length) (refused : RefusedEarly buffer length) :
    StaysInside buffer length := by
  have general : ∃ error, (inspectWalRecord buffer length).outcome = .error error ∧
      ∀ span ∈ (inspectWalRecord buffer length).spans, span.offset + span.count ≤ length := by
    rw [inspectWalRecord]
    split
    · exact ⟨_, rfl, by simp⟩
    · rename_i large
      rw [bind_number (by omega), bind_number (by omega)]
      split
      · exact ⟨_, rfl, by simp; omega⟩
      · rename_i fits
        rw [bind_bytes (by omega)]
        split
        · exact ⟨_, rfl, by simp; omega⟩
        · rename_i same
          rw [bind_number (by omega), bind_number (by omega), bind_number (by omega), bind_number (by omega)]
          have key : length < 29 + fieldAt buffer 25 4 := by
            rcases refused with small | long | mismatch | key
            · omega
            · omega
            · exact absurd mismatch same
            · exact key
          rw [if_pos key]
          exact ⟨_, rfl, by simp; omega⟩
  obtain ⟨error, failed, spans⟩ := general
  refine ⟨(Inspection.below_iff _ _).mpr fun span member => .inr (spans span member), ?_⟩
  intro record returned
  rw [failed] at returned
  cases returned

/-- Any other buffer is looked at up to its key. -/
theorem inspectWalRecord_passed (inside : length ≤ buffer.length) (passed : ¬ RefusedEarly buffer length) :
    ∃ record : Bytes → WalRecord,
      (inspectWalRecord buffer length).spans = fixedSpans (fieldAt buffer 0 4) (fieldAt buffer 25 4) ++
        (inspectValue buffer length (fieldAt buffer 25 4) record).spans ∧
      (inspectWalRecord buffer length).outcome = (inspectValue buffer length (fieldAt buffer 25 4) record).outcome := by
  simp only [RefusedEarly, not_or] at passed
  obtain ⟨large, fits, same, key⟩ := passed
  have body : ¬ length - 8 < fieldAt buffer 0 4 := by omega
  rw [inspectWalRecord, if_neg large, bind_number (by omega), bind_number (by omega), if_neg body,
    bind_bytes (by omega), if_neg same, bind_number (by omega), bind_number (by omega), bind_number (by omega),
    bind_number (by omega), if_neg key, bind_bytes (by omega)]
  exact ⟨_, rfl, rfl⟩

/-- The spans up to the key end inside, and with the body if it reaches behind the
key. -/
theorem fixedSpans_inside {bodyLength keyLen limit : Nat} (body : 8 + bodyLength ≤ limit) (key : 29 + keyLen ≤ limit) :
    ∀ span ∈ fixedSpans bodyLength keyLen, span.offset + span.count ≤ limit := by
  simp only [fixedSpans, List.forall_mem_cons, List.not_mem_nil, false_implies, implies_true, and_true]
  omega

/-- The length of the value is read without a check. -/
theorem not_staysInside_of_cut (inside : length ≤ buffer.length) (passed : ¬ RefusedEarly buffer length)
    (cut : length < 33 + fieldAt buffer 25 4) : ¬ StaysInside buffer length := by
  intro stays
  obtain ⟨record, spans, _⟩ := inspectWalRecord_passed inside passed
  have value := (Inspection.below_iff _ _).mp stays.within ⟨29 + fieldAt buffer 25 4, 4⟩ (by
    rw [spans, inspectValue]
    exact List.mem_append_right _ (Inspection.spans_subset_bind _ _ (List.mem_singleton.mpr rfl)))
  simp only at value
  omega

/-- A value that is refused. -/
theorem staysInside_of_long (inside : length ≤ buffer.length) (passed : ¬ RefusedEarly buffer length)
    (ends : 33 + fieldAt buffer 25 4 ≤ length)
    (long : length < 33 + fieldAt buffer 25 4 + fieldAt buffer (29 + fieldAt buffer 25 4) 4) :
    StaysInside buffer length := by
  obtain ⟨record, spans, outcome⟩ := inspectWalRecord_passed inside passed
  simp only [RefusedEarly, not_or, not_lt] at passed
  obtain ⟨_, bodyEnds, _, keyEnds⟩ := passed
  rw [inspectValue, bind_number (by omega), if_pos (by omega)] at spans outcome
  refine ⟨(Inspection.below_iff _ _).mpr ?_, ?_⟩
  · rw [spans]
    intro span member
    rcases List.mem_append.mp member with early | last
    · exact .inr (fixedSpans_inside bodyEnds keyEnds span early)
    · rw [List.mem_singleton.mp last]
      exact .inr (by simp only; omega)
  · intro record returned
    rw [outcome] at returned
    cases returned

/-- A value that is returned. -/
theorem staysInside_of_short (inside : length ≤ buffer.length) (passed : ¬ RefusedEarly buffer length)
    (ends : 33 + fieldAt buffer 25 4 ≤ length)
    (short : 33 + fieldAt buffer 25 4 + fieldAt buffer (29 + fieldAt buffer 25 4) 4 ≤ length) :
    StaysInside buffer length ↔
      33 + fieldAt buffer 25 4 + fieldAt buffer (29 + fieldAt buffer 25 4) 4 ≤ 8 + fieldAt buffer 0 4 := by
  obtain ⟨record, spans, outcome⟩ := inspectWalRecord_passed inside passed
  simp only [RefusedEarly, not_or, not_lt] at passed
  obtain ⟨_, bodyEnds, _, keyEnds⟩ := passed
  generalize place : 29 + fieldAt buffer 25 4 = offset at *
  generalize valueLen : fieldAt buffer offset 4 = count at *
  rw [inspectValue, place, bind_number (by omega), valueLen, if_neg (by omega), bind_bytes (by omega)] at spans outcome
  have field : (⟨offset, 4⟩ : Span) ∈ (inspectWalRecord buffer length).spans := by
    rw [spans]
    exact List.mem_append_right _ (List.mem_cons_self ..)
  have value : (⟨offset + 4, count⟩ : Span) ∈ (inspectWalRecord buffer length).spans := by
    rw [spans]
    exact List.mem_append_right _ (List.mem_cons_of_mem _ (List.mem_cons_self ..))
  have covers : ∀ limit, 8 + fieldAt buffer 0 4 ≤ limit → offset + 4 + count ≤ limit →
      (inspectWalRecord buffer length).Below limit := by
    intro limit bodyLimit valueLimit
    rw [Inspection.below_iff, spans]
    intro span member
    rcases List.mem_append.mp member with early | late
    · exact .inr (fixedSpans_inside bodyLimit (by omega) span early)
    · rcases List.mem_cons.mp late with rfl | last
      · exact .inr (by simp only; omega)
      · rw [List.mem_singleton.mp last]
        exact .inr (by simp only; omega)
  constructor
  · intro stays
    have covered := (Inspection.below_iff _ _).mp (stays.covered _ outcome)
    have fieldCovered := covered _ field
    have valueCovered := covered _ value
    simp only at fieldCovered valueCovered
    omega
  · intro fits
    exact ⟨covers _ bodyEnds (by omega), fun _ _ => covers _ le_rfl (by omega)⟩

/-- Decoding stays inside exactly if it refuses the buffer up to the key, or if the
length of the value ends in the buffer and the value, unless it is refused too, ends
with the body. -/
theorem staysInside_iff (inside : length ≤ buffer.length) :
    StaysInside buffer length ↔ RefusedEarly buffer length ∨ EndsInside buffer length := by
  by_cases refused : RefusedEarly buffer length
  · exact ⟨fun _ => .inl refused, fun _ => staysInside_of_refused inside refused⟩
  · rw [or_iff_right refused, EndsInside]
    by_cases ends : 33 + fieldAt buffer 25 4 ≤ length
    · by_cases long : length < 33 + fieldAt buffer 25 4 + fieldAt buffer (29 + fieldAt buffer 25 4) 4
      · exact ⟨fun _ => ⟨ends, .inl long⟩, fun _ => staysInside_of_long inside refused ends long⟩
      · rw [staysInside_of_short inside refused ends (by omega)]
        omega
    · exact ⟨fun stays => absurd stays (not_staysInside_of_cut inside refused (by omega)), fun fits => absurd fits.1 ends⟩

end

theorem staysInside_written : StaysInside (serializeWalRecord ⟨.putRow, 1, 1, [1], [2]⟩) 35 :=
  (staysInside_iff (by decide)).mpr (.inr ⟨by decide +kernel, .inr (by decide +kernel)⟩)

/-- A body whose key takes all the bytes that are left. -/
def endlessKeyBody : Bytes :=
  encodeUint8 1 ++ encodeUint64 1 ++ encodeUint64 1 ++ encodeUint32 4 ++ [107, 101, 121, 49]

/-- As the log reader hands it on: the header, then as many bytes as it counts. -/
def endlessKeyRecord : Bytes :=
  encodeUint32 endlessKeyBody.length ++ encodeUint32 (computeCrc32 endlessKeyBody).toNat ++ endlessKeyBody

/-- The length of the value is read behind a record that its key fills, and thirty-three
zeros are a record of nothing that the checksum covers. -/
theorem not_staysInside : ¬ StaysInside endlessKeyRecord endlessKeyRecord.length ∧
    ∃ record, deserializeWalRecord (List.replicate 33 0) = .ok record ∧ ¬ StaysInside (List.replicate 33 0) 33 := by
  constructor
  · intro stays
    have field : (⟨33, 4⟩ : Span) ∈ (inspectWalRecord endlessKeyRecord endlessKeyRecord.length).spans := by decide +kernel
    exact absurd (stays.within 33 ⟨_, field, by decide, by decide⟩) (by decide)
  · have returned : (inspectWalRecord (List.replicate 33 0) 33).outcome = .ok ⟨⟨0⟩, 0, 0, [], []⟩ := by decide +kernel
    refine ⟨_, (outcome_inspectWalRecord _).symm.trans returned, ?_⟩
    intro stays
    have field : (⟨8, 1⟩ : Span) ∈ (inspectWalRecord (List.replicate 33 0) 33).spans := by decide +kernel
    exact absurd (stays.covered _ returned 8 ⟨_, field, by decide, by decide⟩) (by decide)

end Enigma
