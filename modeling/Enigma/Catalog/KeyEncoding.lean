import Enigma.Foundation.OrderedCode
import Enigma.Storage.Types

/-! Rows are stored under one key each: partition key, clustering key and column
name, escaped and terminated. -/

namespace Enigma

structure CompositeKey where
  partitionKey : Bytes
  clusteringKey : Bytes
  columnName : Bytes
  deriving DecidableEq, Repr

/-- A byte of a component, with the mark behind it that tells a zero from a terminator. -/
def escapeByte (byte : UInt8) : Bytes := if byte = 0x00 then [0x00, 0xFF] else [byte]

/-- A component and its terminator. -/
def encodeField (field : Bytes) : Bytes := field.flatMap escapeByte ++ [0x00, 0x01]

def encodeCompositeKey (key : CompositeKey) : Bytes :=
  encodeField key.partitionKey ++ encodeField key.clusteringKey ++ encodeField key.columnName

/-- The loop over the bytes of a component: what it has collected, and the bytes
behind the terminator. -/
def decodeField (target : Bytes) : Bytes → Option (Bytes × Bytes)
  | [] => none
  | byte :: rest =>
    if byte = 0x00 then
      match rest with
      | [] => none
      | next :: rest =>
        if next = 0xFF then decodeField (target ++ [0x00]) rest
        else if next = 0x01 then some (target, rest)
        else none
    else decodeField (target ++ [byte]) rest

def decodeCompositeKey (encoded : Bytes) : Except Error CompositeKey :=
  match decodeField [] encoded with
  | none => .error ⟨.readErr, "Malformed partition key"⟩
  | some (partitionKey, rest) =>
    match decodeField [] rest with
    | none => .error ⟨.readErr, "Malformed clustering key"⟩
    | some (clusteringKey, rest) =>
      match decodeField [] rest with
      | none => .error ⟨.readErr, "Malformed column name"⟩
      | some (columnName, _) => .ok ⟨partitionKey, clusteringKey, columnName⟩

/-- The order of the data model: by partition key, then by clustering key, then by
column name. -/
def CompositeKey.row (key : CompositeKey) : Bytes ×ₗ Bytes ×ₗ Bytes :=
  toLex (key.partitionKey, toLex (key.clusteringKey, key.columnName))

theorem encodeField_nil : encodeField [] = [0x00, 0x01] := rfl

theorem encodeField_cons (byte : UInt8) (field : Bytes) :
    encodeField (byte :: field) = escapeByte byte ++ encodeField field := by
  simp [encodeField]

theorem escapeByte_zero : escapeByte 0 = [0x00, 0xFF] := rfl

theorem escapeByte_filled {byte : UInt8} (filled : byte ≠ 0) : escapeByte byte = [byte] := if_neg filled

/-- Components compare as their encodings do. A component that ends goes before one
that goes on, since its terminator is below an escaped zero and below any other
byte. -/
theorem encodeField_keepsOrder : KeepsOrder encodeField := by
  intro left right leftRest rightRest
  have mark : (1 : UInt8) < 255 := by decide
  have unmarked : ¬ (255 : UInt8) < 1 := by decide
  have different : ¬ (255 : UInt8) = 1 := by decide
  induction left generalizing right with
  | nil =>
    cases right with
    | nil => simp [encodeField_nil]
    | cons byte right =>
      rw [encodeField_nil, encodeField_cons]
      by_cases zero : byte = 0
      · subst zero
        simp [escapeByte_zero, List.cons_lt_cons_iff, mark]
      · simp [escapeByte_filled zero, List.cons_lt_cons_iff, UInt8.pos_iff_ne_zero.mpr zero]
  | cons byte left ih =>
    cases right with
    | nil =>
      rw [encodeField_nil, encodeField_cons]
      by_cases zero : byte = 0
      · subst zero
        simp only [escapeByte_zero, List.cons_append, List.nil_append, List.cons_lt_cons_iff, unmarked, different]
        simp
      · simp only [escapeByte_filled zero, List.cons_append, List.nil_append, List.cons_lt_cons_iff, zero]
        simp
    | cons next right =>
      rw [encodeField_cons, encodeField_cons, List.append_assoc, List.append_assoc]
      by_cases zero : byte = 0 <;> by_cases nextZero : next = 0
      · subst zero nextZero
        simp [escapeByte_zero, ih]
      · subst zero
        simp [escapeByte_zero, escapeByte_filled nextZero, List.cons_lt_cons_iff, UInt8.pos_iff_ne_zero.mpr nextZero]
      · subst nextZero
        simp [escapeByte_zero, escapeByte_filled zero, List.cons_lt_cons_iff, zero]
      · simp only [escapeByte_filled zero, escapeByte_filled nextZero, List.cons_append, List.nil_append,
          List.cons_lt_cons_iff, ih, List.cons.injEq]
        tauto

/-- The code of a row is three codes that keep the order, one behind the other. -/
theorem encodeRow_keepsOrder : KeepsOrder fun row : Bytes ×ₗ Bytes ×ₗ Bytes =>
    encodeField (ofLex row).1 ++ (encodeField (ofLex (ofLex row).2).1 ++ encodeField (ofLex (ofLex row).2).2) :=
  encodeField_keepsOrder.append (encodeField_keepsOrder.append encodeField_keepsOrder)

theorem CompositeKey.row_injective : Function.Injective CompositeKey.row := by
  rintro ⟨partitionKey, clusteringKey, columnName⟩ ⟨_, _, _⟩ same
  cases same
  rfl

/-- Encoded keys are ordered as the rows they stand for, so no two rows share one. -/
theorem encodeCompositeKey_order_embedding (left right : CompositeKey) :
    (encodeCompositeKey left < encodeCompositeKey right ↔ left.row < right.row) ∧
      (encodeCompositeKey left = encodeCompositeKey right ↔ left = right) := by
  have leftCode : encodeCompositeKey left =
      encodeField left.partitionKey ++ (encodeField left.clusteringKey ++ encodeField left.columnName) := by
    rw [encodeCompositeKey, List.append_assoc]
  have rightCode : encodeCompositeKey right =
      encodeField right.partitionKey ++ (encodeField right.clusteringKey ++ encodeField right.columnName) := by
    rw [encodeCompositeKey, List.append_assoc]
  refine ⟨?_, ?_, fun same => congrArg encodeCompositeKey same⟩
  · rw [leftCode, rightCode]
    exact encodeRow_keepsOrder.lt_iff left.row right.row
  · intro same
    rw [leftCode, rightCode] at same
    exact CompositeKey.row_injective (encodeRow_keepsOrder.injective same)

theorem decodeField_filled {byte : UInt8} (filled : byte ≠ 0) (target rest : Bytes) :
    decodeField target (byte :: rest) = decodeField (target ++ [byte]) rest := by
  rw [decodeField.eq_def target (byte :: rest)]
  simp only [filled, ↓reduceIte]

theorem decodeField_encodeField (field target rest : Bytes) :
    decodeField target (encodeField field ++ rest) = some (target ++ field, rest) := by
  induction field generalizing target with
  | nil => simp [encodeField_nil, decodeField]
  | cons byte field ih =>
    rw [encodeField_cons, List.append_assoc]
    by_cases zero : byte = 0
    · subst zero
      simp [escapeByte_zero, decodeField, ih]
    · simp [escapeByte_filled zero, decodeField_filled zero, ih]

/-- What the loop accepts is an encoded component. -/
theorem decodeField_eq_some {target encoded result rest : Bytes}
    (decoded : decodeField target encoded = some (result, rest)) :
    ∃ field, result = target ++ field ∧ encoded = encodeField field ++ rest := by
  fun_induction decodeField target encoded with
  | case1 target => cases decoded
  | case2 target => cases decoded
  | case3 target later ih =>
    obtain ⟨field, same, shape⟩ := ih decoded
    refine ⟨0 :: field, ?_, ?_⟩
    · rw [same, List.append_assoc]
      rfl
    · rw [shape, encodeField_cons]
      rfl
  | case4 target later =>
    cases decoded
    exact ⟨[], by simp, rfl⟩
  | case5 => cases decoded
  | case6 target byte later filled ih =>
    obtain ⟨field, same, shape⟩ := ih decoded
    refine ⟨byte :: field, ?_, ?_⟩
    · rw [same, List.append_assoc]
      rfl
    · rw [shape, encodeField_cons, escapeByte_filled filled]
      rfl

/-- A key is decoded from exactly the byte strings that start with its encoding. -/
theorem decode_eq_ok_iff (encoded : Bytes) (key : CompositeKey) :
    decodeCompositeKey encoded = .ok key ↔ encodeCompositeKey key <+: encoded := by
  constructor
  · intro decoded
    simp only [decodeCompositeKey] at decoded
    split at decoded
    · cases decoded
    · rename_i partitionKey afterPartition first
      split at decoded
      · cases decoded
      · rename_i clusteringKey afterClustering second
        split at decoded
        · cases decoded
        · rename_i columnName afterColumn third
          cases decoded
          obtain ⟨_, rfl, partShape⟩ := decodeField_eq_some first
          obtain ⟨_, rfl, clusterShape⟩ := decodeField_eq_some second
          obtain ⟨_, rfl, columnShape⟩ := decodeField_eq_some third
          refine ⟨afterColumn, ?_⟩
          rw [partShape, clusterShape, columnShape]
          simp only [encodeCompositeKey, List.append_assoc]
  · rintro ⟨rest, same⟩
    rw [← same]
    simp only [decodeCompositeKey, encodeCompositeKey, List.append_assoc, decodeField_encodeField, List.nil_append]

/-- Decoding undoes encoding, accepts nothing else, and finds no encoding inside
the front of another. -/
theorem decodeCompositeKey_exact (encoded : Bytes) (key : CompositeKey) :
    (decodeCompositeKey encoded = .ok key ↔ encodeCompositeKey key <+: encoded) ∧
      decodeCompositeKey (encodeCompositeKey key) = .ok key ∧
      ((∀ other, ¬ encodeCompositeKey other <+: encoded) → ∃ error, decodeCompositeKey encoded = .error error) ∧
      ∀ other, encodeCompositeKey other <+: encodeCompositeKey key → other = key := by
  have undone : decodeCompositeKey (encodeCompositeKey key) = .ok key := (decode_eq_ok_iff _ key).mpr List.prefix_rfl
  refine ⟨decode_eq_ok_iff encoded key, undone, ?_, ?_⟩
  · intro none
    cases decoded : decodeCompositeKey encoded with
    | error error => exact ⟨error, rfl⟩
    | ok other => exact absurd ((decode_eq_ok_iff encoded other).mp decoded) (none other)
  · intro other front
    have same := (decode_eq_ok_iff (encodeCompositeKey key) other).mpr front
    rw [undone] at same
    cases same
    rfl

end Enigma
