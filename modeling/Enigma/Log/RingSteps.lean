import Enigma.Log.RingBufferSink

/-! What a step on the ring can do: the steps of writers by what they change, and those of
dumps, which only read. -/

namespace Enigma

namespace Log

namespace RingBufferSink

/-- The number that a call has been given. -/
def SubmitPhase.seq? : SubmitPhase → Option UInt64
  | .idle | .entering _ => none
  | .numbered _ seq | .claiming _ seq _ | .copying _ seq _ | .publishing _ seq | .returned _ seq _ => some seq

/-- The number under which a call owns a slot. -/
def SubmitPhase.owns? : SubmitPhase → Option UInt64
  | .copying _ seq _ | .publishing _ seq => some seq
  | _ => none

def SubmitPhase.Finished (phase : SubmitPhase) : Prop := ∃ formatted seq kept, phase = .returned formatted seq kept

/-- The steps of `submit` by what they change. -/
inductive Submits (state : State) : State → Prop where
  | call (id : Nat) (formatted : Bytes) (was : state.calls id = .idle) : Submits state (state.enter id (.entering formatted))
  | number (id : Nat) (formatted : Bytes) (was : state.calls id = .entering formatted) :
    Submits state
      { state.enter id (.numbered formatted (UInt64.ofNat state.writeSeq)) with writeSeq := state.writeSeq + 1 }
  | taken (id : Nat) (formatted : Bytes) (seq : UInt64) (was : state.calls id = .numbered formatted seq)
    (flagged : (state.ring (state.place seq)).gen &&& writingFlag ≠ 0) :
    Submits state (state.enter id (.returned formatted seq false))
  | load (id : Nat) (formatted : Bytes) (seq : UInt64) (was : state.calls id = .numbered formatted seq)
    (clear : (state.ring (state.place seq)).gen &&& writingFlag = 0) :
    Submits state (state.enter id (.claiming formatted seq (state.ring (state.place seq)).gen))
  | claim (id : Nat) (formatted : Bytes) (seq cur : UInt64) (was : state.calls id = .claiming formatted seq cur)
    (same : (state.ring (state.place seq)).gen = cur) :
    Submits state ((state.setSlot (state.place seq)
      { state.ring (state.place seq) with gen := seq ||| writingFlag }).enter id (.copying formatted seq 0))
  | lose (id : Nat) (formatted : Bytes) (seq cur : UInt64) (was : state.calls id = .claiming formatted seq cur)
    (other : (state.ring (state.place seq)).gen ≠ cur) : Submits state (state.enter id (.returned formatted seq false))
  | word (id : Nat) (formatted : Bytes) (seq : UInt64) (w : Nat) (was : state.calls id = .copying formatted seq w)
    (more : 8 * w < state.copyLen formatted) (inside : w < (state.ring (state.place seq)).data.length) :
    Submits state ((state.setSlot (state.place seq)
      { state.ring (state.place seq) with
        data := (state.ring (state.place seq)).data.set w (wordOf (formatted.take (state.copyLen formatted)) w) }).enter
      id (.copying formatted seq (w + 1)))
  | size (id : Nat) (formatted : Bytes) (seq : UInt64) (w : Nat) (was : state.calls id = .copying formatted seq w)
    (done : state.copyLen formatted ≤ 8 * w) :
    Submits state ((state.setSlot (state.place seq)
      { state.ring (state.place seq) with len := UInt32.ofNat (state.copyLen formatted) }).enter id
      (.publishing formatted seq))
  | publish (id : Nat) (formatted : Bytes) (seq : UInt64) (was : state.calls id = .publishing formatted seq) :
    Submits state ((state.setSlot (state.place seq) { state.ring (state.place seq) with gen := seq }).enter id
      (.returned formatted seq true))

/-- The steps of a dump that write nothing out. -/
inductive Looks (state : State) : DumpPhase → DumpPhase → Prop where
  | begin : Looks state .idle
      (.scanning (if state.slotsCap < state.writeSeq % 2 ^ 64 then state.writeSeq % 2 ^ 64 - state.slotsCap else 0)
        (state.writeSeq % 2 ^ 64))
  | pass (i currSeq : Nat) (more : i < currSeq)
    (unreadable : (state.ring (i % state.slotsCap)).gen = slotFree ∨
      (state.ring (i % state.slotsCap)).gen &&& writingFlag ≠ 0) :
    Looks state (.scanning i currSeq) (.scanning (i + 1) currSeq)
  | find (i currSeq : Nat) (more : i < currSeq) (used : (state.ring (i % state.slotsCap)).gen ≠ slotFree)
    (clear : (state.ring (i % state.slotsCap)).gen &&& writingFlag = 0) :
    Looks state (.scanning i currSeq) (.found i currSeq (state.ring (i % state.slotsCap)).gen)
  | finish (i currSeq : Nat) (done : currSeq ≤ i) : Looks state (.scanning i currSeq) (.finished currSeq)
  | hollow (i currSeq : Nat) (gen : UInt64) (empty : (state.ring (i % state.slotsCap)).len.toNat = 0) :
    Looks state (.found i currSeq gen) (.scanning (i + 1) currSeq)
  | measure (i currSeq : Nat) (gen : UInt64) (filled : (state.ring (i % state.slotsCap)).len.toNat ≠ 0) :
    Looks state (.found i currSeq gen) (.loading i currSeq gen
      (min (state.ring (i % state.slotsCap)).len.toNat dumpCopyMax)
      (dumpCopyMax < (state.ring (i % state.slotsCap)).len.toNat) [] 0)
  | copy (i currSeq : Nat) (gen : UInt64) (len : Nat) (truncated : Bool) (buf : Bytes) (w : Nat) (word : Word)
    (more : 8 * w < len) (read : (state.ring (i % state.slotsCap)).data[w]? = some word) :
    Looks state (.loading i currSeq gen len truncated buf w)
      (.loading i currSeq gen len truncated (buf ++ word.take (len - 8 * w)) (w + 1))
  | discard (i currSeq : Nat) (gen : UInt64) (len : Nat) (truncated : Bool) (buf : Bytes) (w : Nat) (done : len ≤ 8 * w)
    (changed : (state.ring (i % state.slotsCap)).gen ≠ gen) :
    Looks state (.loading i currSeq gen len truncated buf w) (.scanning (i + 1) currSeq)

/-- The steps of dumps. -/
inductive Reads (state : State) : State → Prop where
  | look (dump : Nat) (phase : DumpPhase) (looks : Looks state (state.dumps dump) phase) :
    Reads state (state.dumping dump phase)
  | write (dump i currSeq : Nat) (gen : UInt64) (len : Nat) (truncated : Bool) (buf : Bytes) (w : Nat)
    (was : state.dumps dump = .loading i currSeq gen len truncated buf w) (done : len ≤ 8 * w)
    (unchanged : (state.ring (i % state.slotsCap)).gen = gen) :
    Reads state ((state.dumping dump (.scanning (i + 1) currSeq)).write dump gen
      (if truncated then buf.set (len - 1) newline else buf))

/-- The steps of all parties. -/
inductive Moves (state after : State) : Prop where
  | submit (submits : Submits state after)
  | read (reads : Reads state after)

variable {state after : State}

theorem stepSubmit_submits {act : Act} (moved : stepSubmit state act = some after) : Submits state after := by
  cases act with
  | call id formatted =>
    cases was : state.calls id with
    | idle =>
      simp only [stepSubmit, was, Option.some.injEq] at moved
      subst moved
      exact .call id formatted was
    | _ => simp [stepSubmit, was] at moved
  | number id =>
    cases was : state.calls id with
    | entering formatted =>
      simp only [stepSubmit, was, Option.some.injEq] at moved
      subst moved
      exact .number id formatted was
    | _ => simp [stepSubmit, was] at moved
  | load id =>
    cases was : state.calls id with
    | numbered formatted seq =>
      simp only [stepSubmit, was] at moved
      split at moved
      · rename_i flagged
        cases moved
        exact .taken id formatted seq was flagged
      · rename_i clear
        cases moved
        exact .load id formatted seq was (not_not.mp clear)
    | _ => simp [stepSubmit, was] at moved
  | claim id =>
    cases was : state.calls id with
    | claiming formatted seq cur =>
      simp only [stepSubmit, was] at moved
      split at moved
      · rename_i same
        cases moved
        exact .claim id formatted seq cur was same
      · rename_i other
        cases moved
        exact .lose id formatted seq cur was other
    | _ => simp [stepSubmit, was] at moved
  | store id =>
    cases was : state.calls id with
    | copying formatted seq w =>
      simp only [stepSubmit, was] at moved
      split at moved
      · rename_i more
        split at moved
        · rename_i inside
          cases moved
          exact .word id formatted seq w was more inside
        · cases moved
      · rename_i done
        cases moved
        exact .size id formatted seq w was (Nat.le_of_not_lt done)
    | _ => simp [stepSubmit, was] at moved
  | publish id =>
    cases was : state.calls id with
    | publishing formatted seq =>
      simp only [stepSubmit, was, Option.some.injEq] at moved
      subst moved
      exact .publish id formatted seq was
    | _ => simp [stepSubmit, was] at moved
  | _ => simp [stepSubmit] at moved

theorem stepDump_reads {act : Act} (moved : stepDump state act = some after) : Reads state after := by
  cases act with
  | begin dump =>
    cases was : state.dumps dump with
    | idle =>
      simp only [stepDump, was, Option.some.injEq] at moved
      subst moved
      exact .look dump _ (was ▸ .begin)
    | _ => simp [stepDump, was] at moved
  | probe dump =>
    cases was : state.dumps dump with
    | scanning i currSeq =>
      simp only [stepDump, was] at moved
      split at moved
      · rename_i more
        split at moved
        · rename_i unreadable
          cases moved
          exact .look dump _ (was ▸ .pass i currSeq more unreadable)
        · rename_i readable
          cases moved
          obtain ⟨used, clear⟩ := not_or.mp readable
          exact .look dump _ (was ▸ .find i currSeq more used (not_not.mp clear))
      · rename_i done
        cases moved
        exact .look dump _ (was ▸ .finish i currSeq (Nat.le_of_not_lt done))
    | _ => simp [stepDump, was] at moved
  | measure dump =>
    cases was : state.dumps dump with
    | found i currSeq gen =>
      simp only [stepDump, was] at moved
      split at moved
      · rename_i empty
        cases moved
        exact .look dump _ (was ▸ .hollow i currSeq gen empty)
      · rename_i filled
        cases moved
        exact .look dump _ (was ▸ .measure i currSeq gen filled)
    | _ => simp [stepDump, was] at moved
  | copy dump =>
    cases was : state.dumps dump with
    | loading i currSeq gen len truncated buf w =>
      simp only [stepDump, was] at moved
      split at moved
      · rename_i more
        obtain ⟨word, read, same⟩ := Option.bind_eq_some_iff.mp moved
        cases same
        exact .look dump _ (was ▸ .copy i currSeq gen len truncated buf w word more read)
      · rename_i done
        split at moved
        · rename_i changed
          cases moved
          exact .look dump _ (was ▸ .discard i currSeq gen len truncated buf w (Nat.le_of_not_lt done) changed)
        · rename_i unchanged
          cases moved
          exact .write dump i currSeq gen len truncated buf w was (Nat.le_of_not_lt done) (not_not.mp unchanged)
    | _ => simp [stepDump, was] at moved
  | _ => simp [stepDump] at moved

theorem step_moves {act : Act} (moved : step state act = some after) : Moves state after := by
  rcases Option.or_eq_some_iff.mp moved with submitted | ⟨-, dumped⟩
  · exact .submit (stepSubmit_submits submitted)
  · exact .read (stepDump_reads dumped)

end RingBufferSink

end Log

end Enigma
