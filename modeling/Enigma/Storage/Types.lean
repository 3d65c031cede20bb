import Enigma.Foundation.SortedMap
import Mathlib.Data.UInt

/-! The data every layer of the storage engine shares: keys, values, log
records, table metadata and errors. -/

namespace Enigma

instance instLinearOrderUInt8 : LinearOrder UInt8 where
  le_refl := UInt8.le_refl
  le_trans := fun _ _ _ => UInt8.le_trans
  le_antisymm := fun _ _ => UInt8.le_antisymm
  le_total := UInt8.le_total
  lt_iff_le_not_ge := fun left right => by
    simp only [UInt8.lt_iff_toNat_lt, UInt8.le_iff_toNat_le]
    omega
  toDecidableLE := inferInstance
  toDecidableEq := inferInstance
  toDecidableLT := inferInstance

abbrev Bytes := List UInt8

/-- Keys compare as byte strings, unsigned and lexicographically. -/
abbrev Key := Bytes

inductive ErrorCode where
  | none
  | unexpectedErr
  | fileDescriptorErr
  | fsyncErr
  | closeErr
  | badConfig
  | writeErr
  | readErr
  | readOutOfRange
  | errEof
  | fstatErr
  | badMagic
  | badFile
  | structureEmpty
  | staleVersion
  deriving DecidableEq, Repr

structure Error where
  code : ErrorCode
  message : String
  deriving DecidableEq, Repr

def Error.isStaleVersion (error : Error) : Bool := error.code = .staleVersion

/-- A stored version of a row. The bytes are empty when it is a tombstone. -/
structure InternalValue where
  data : Bytes
  isTombstone : Bool
  sequence : Nat
  deriving DecidableEq, Repr

abbrev Entry := Key × InternalValue

/-- What a reader of the database sees of a stored version. -/
def InternalValue.visible (value : InternalValue) : Option Bytes :=
  if value.isTombstone then none else some value.data

/-- What a log record does: a byte, of which two values have a name. A record is
read back by a cast, which takes any byte. -/
structure WalOpType where
  code : UInt8
  deriving DecidableEq, Repr

def WalOpType.putRow : WalOpType := ⟨1⟩

def WalOpType.deleteRow : WalOpType := ⟨2⟩

structure WalRecord where
  opType : WalOpType
  timestamp : Nat
  sequence : Nat
  key : Key
  value : Bytes
  deriving DecidableEq, Repr

abbrev SSTableId := Nat

structure SSTableMeta where
  id : SSTableId
  sizeBytes : Nat
  entryCount : Nat
  maxSequence : Nat
  deriving DecidableEq, Repr

structure SSTFooter where
  indexBlockOffset : Nat
  indexBlockSize : Nat
  filterBlockOffset : Nat
  filterBlockSize : Nat
  entryCount : Nat
  formatVersion : Nat
  highestSequence : Nat
  sizeBytes : Nat
  deriving DecidableEq, Repr

end Enigma
