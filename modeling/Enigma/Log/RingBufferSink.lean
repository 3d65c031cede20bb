import Enigma.Foundation.Interleaving
import Enigma.Storage.Types
import Mathlib.Data.List.Nodup

/-! The ring that a crash dump prints. Any number of calls of `submit` and any number of
dumps run at the same time, without a lock; every access to an atomic, and every word of
a payload, is a step of its own. -/

namespace Enigma

namespace Log

namespace RingBufferSink

/-- Marks the generation of a slot that a writer owns. -/
def writingFlag : UInt64 := 0x8000000000000000

/-- The generation of a slot that was never written. -/
def slotFree : UInt64 := writingFlag - 1

def dumpCopyMax : Nat := 1024

def newline : UInt8 := 10

def header : Bytes := "\n--- CRASH RING BUFFER DUMP ---\n".toUTF8.toList

/-- A word of a payload, as the eight bytes that it has in memory. -/
abbrev Word := Bytes

structure Slot where
  gen : UInt64
  len : UInt32
  data : List Word
  deriving DecidableEq

/-- The word that `store_slot_bytes` makes of the bytes from eight times its index on. -/
def wordOf (bytes : Bytes) (w : Nat) : Word :=
  let part := (bytes.drop (8 * w)).take 8
  part ++ List.replicate (8 - part.length) 0

/-- What a call of `submit` does next, with what it has in its variables. A call that has
returned has kept its record or dropped it. -/
inductive SubmitPhase where
  | idle
  | entering (formatted : Bytes)
  | numbered (formatted : Bytes) (seq : UInt64)
  | claiming (formatted : Bytes) (seq cur : UInt64)
  | copying (formatted : Bytes) (seq : UInt64) (w : Nat)
  | publishing (formatted : Bytes) (seq : UInt64)
  | returned (formatted : Bytes) (seq : UInt64) (kept : Bool)
  deriving DecidableEq

inductive DumpPhase where
  | idle
  | scanning (i currSeq : Nat)
  | found (i currSeq : Nat) (gen : UInt64)
  | loading (i currSeq : Nat) (gen : UInt64) (len : Nat) (truncated : Bool) (buf : Bytes) (w : Nat)
  | finished (currSeq : Nat)
  deriving DecidableEq

/-- `writeSeq` is how many numbers were given out; the code has it in 64 bits. What a dump
writes after the header is kept with the generation that it was read under. -/
structure State where
  slotsCap : Nat
  slotBytes : Nat
  ring : Nat → Slot
  writeSeq : Nat
  calls : Nat → SubmitPhase
  dumps : Nat → DumpPhase
  written : Nat → List (UInt64 × Bytes)

inductive Act where
  | call (id : Nat) (formatted : Bytes)
  | number (id : Nat)
  | load (id : Nat)
  | claim (id : Nat)
  | store (id : Nat)
  | publish (id : Nat)
  | begin (dump : Nat)
  | probe (dump : Nat)
  | measure (dump : Nat)
  | copy (dump : Nat)
  deriving DecidableEq

namespace State

def new (slots slotBytes : Nat) : State :=
  let slotBytes := if slotBytes < 64 then 512 else slotBytes
  { slotsCap := if slots = 0 then 1024 else slots
    slotBytes
    ring := fun _ => ⟨slotFree, 0, List.replicate ((slotBytes + 7) / 8) (List.replicate 8 0)⟩
    writeSeq := 0
    calls := fun _ => .idle
    dumps := fun _ => .idle
    written := fun _ => [] }

def slotWords (state : State) : Nat := (state.slotBytes + 7) / 8

def copyLen (state : State) (formatted : Bytes) : Nat := min formatted.length state.slotBytes

/-- The slot of a sequence number. -/
def place (state : State) (seq : UInt64) : Nat := seq.toNat % state.slotsCap

def enter (state : State) (id : Nat) (phase : SubmitPhase) : State :=
  { state with calls := Function.update state.calls id phase }

def setSlot (state : State) (index : Nat) (slot : Slot) : State :=
  { state with ring := fun other => if other = index then slot else state.ring other }

def dumping (state : State) (dump : Nat) (phase : DumpPhase) : State :=
  { state with dumps := Function.update state.dumps dump phase }

def write (state : State) (dump : Nat) (gen : UInt64) (bytes : Bytes) : State :=
  { state with written := Function.update state.written dump (state.written dump ++ [(gen, bytes)]) }

/-- All that a dump has written. -/
def output (state : State) (dump : Nat) : List Bytes := header :: (state.written dump).map Prod.snd

section

variable (state : State) (id index dump : Nat) (phase : SubmitPhase) (slot : Slot)

@[simp] theorem enter_ring : (state.enter id phase).ring = state.ring := rfl

@[simp] theorem enter_calls : (state.enter id phase).calls = Function.update state.calls id phase := rfl

@[simp] theorem enter_dumps : (state.enter id phase).dumps = state.dumps := rfl

@[simp] theorem enter_written : (state.enter id phase).written = state.written := rfl

@[simp] theorem setSlot_ring : (state.setSlot index slot).ring = Function.update state.ring index slot := by
  funext other
  rw [Function.update_apply]
  rfl

@[simp] theorem setSlot_calls : (state.setSlot index slot).calls = state.calls := rfl

@[simp] theorem setSlot_dumps : (state.setSlot index slot).dumps = state.dumps := rfl

@[simp] theorem setSlot_written : (state.setSlot index slot).written = state.written := rfl

end

end State

def stepSubmit (state : State) : Act → Option State
  | .call id formatted =>
    match state.calls id with
    | .idle => some (state.enter id (.entering formatted))
    | _ => none
  | .number id =>
    match state.calls id with
    | .entering formatted =>
      some { state.enter id (.numbered formatted (UInt64.ofNat state.writeSeq)) with writeSeq := state.writeSeq + 1 }
    | _ => none
  | .load id =>
    match state.calls id with
    | .numbered formatted seq =>
      let cur := (state.ring (state.place seq)).gen
      if cur &&& writingFlag ≠ 0 then some (state.enter id (.returned formatted seq false))
      else some (state.enter id (.claiming formatted seq cur))
    | _ => none
  | .claim id =>
    match state.calls id with
    | .claiming formatted seq cur =>
      let slot := state.ring (state.place seq)
      if slot.gen = cur then
        some ((state.setSlot (state.place seq) { slot with gen := seq ||| writingFlag }).enter id
          (.copying formatted seq 0))
      else some (state.enter id (.returned formatted seq false))
    | _ => none
  | .store id =>
    match state.calls id with
    | .copying formatted seq w =>
      let slot := state.ring (state.place seq)
      if 8 * w < state.copyLen formatted then
        -- a word outside of the slot would be written into other memory
        if w < slot.data.length then
          let word := wordOf (formatted.take (state.copyLen formatted)) w
          some ((state.setSlot (state.place seq) { slot with data := slot.data.set w word }).enter id
            (.copying formatted seq (w + 1)))
        else none
      else
        some ((state.setSlot (state.place seq) { slot with len := UInt32.ofNat (state.copyLen formatted) }).enter id
          (.publishing formatted seq))
    | _ => none
  | .publish id =>
    match state.calls id with
    | .publishing formatted seq =>
      let slot := state.ring (state.place seq)
      some ((state.setSlot (state.place seq) { slot with gen := seq }).enter id (.returned formatted seq true))
    | _ => none
  | _ => none

def stepDump (state : State) : Act → Option State
  | .begin dump =>
    match state.dumps dump with
    | .idle =>
      let currSeq := state.writeSeq % 2 ^ 64
      let start := if state.slotsCap < currSeq then currSeq - state.slotsCap else 0
      some (state.dumping dump (.scanning start currSeq))
    | _ => none
  | .probe dump =>
    match state.dumps dump with
    | .scanning i currSeq =>
      if i < currSeq then
        let gen := (state.ring (i % state.slotsCap)).gen
        if gen = slotFree ∨ gen &&& writingFlag ≠ 0 then some (state.dumping dump (.scanning (i + 1) currSeq))
        else some (state.dumping dump (.found i currSeq gen))
      else some (state.dumping dump (.finished currSeq))
    | _ => none
  | .measure dump =>
    match state.dumps dump with
    | .found i currSeq gen =>
      let len := (state.ring (i % state.slotsCap)).len.toNat
      if len = 0 then some (state.dumping dump (.scanning (i + 1) currSeq))
      else some (state.dumping dump (.loading i currSeq gen (min len dumpCopyMax) (dumpCopyMax < len) [] 0))
    | _ => none
  | .copy dump =>
    match state.dumps dump with
    | .loading i currSeq gen len truncated buf w =>
      let slot := state.ring (i % state.slotsCap)
      if 8 * w < len then do
        let word ← slot.data[w]?
        some (state.dumping dump (.loading i currSeq gen len truncated (buf ++ word.take (len - 8 * w)) (w + 1)))
      else
        let buf := if truncated then buf.set (len - 1) newline else buf
        let state := state.dumping dump (.scanning (i + 1) currSeq)
        if slot.gen ≠ gen then some state else some (state.write dump gen buf)
    | _ => none
  | _ => none

def step (state : State) (act : Act) : Option State := (stepSubmit state act).or (stepDump state act)

end RingBufferSink

end Log

end Enigma
