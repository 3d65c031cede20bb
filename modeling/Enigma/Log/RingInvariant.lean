import Enigma.Log.RingSteps
import Mathlib.Data.Nat.Bitwise

/-! What a dump prints. A slot is written only while its generation carries the flag of
its writer, and no generation comes back: a dump that finds the same generation before and
after it has copied a slot has copied one record. -/

namespace Enigma

namespace Log

namespace RingBufferSink

/-- What is printed of a record: as much as fits into a slot and into the buffer of the
dump, with a line end where the buffer ends. -/
def printed (slotBytes : Nat) (formatted : Bytes) : Bytes :=
  let len := min formatted.length slotBytes % 2 ^ 32
  if dumpCopyMax < len then formatted.take (dumpCopyMax - 1) ++ [newline] else formatted.take len

section Flags

variable {left right : UInt64}

theorem clear_of_lt (small : left.toNat < 2 ^ 63) : left &&& writingFlag = 0 := by
  apply UInt64.toNat_inj.mp
  rw [UInt64.toNat_and]
  change left.toNat &&& 2 ^ 63 = 0
  rw [Nat.and_two_pow, Nat.testBit_lt_two_pow small]
  rfl

theorem flag_toNat (small : left.toNat < 2 ^ 63) : (left ||| writingFlag).toNat = 2 ^ 63 + left.toNat := by
  have sum := Nat.two_pow_add_eq_or_of_lt small 1
  rw [Nat.mul_one] at sum
  rw [sum, UInt64.toNat_or, Nat.or_comm]
  rfl

theorem flagged (seq : UInt64) : (seq ||| writingFlag) &&& writingFlag ≠ 0 := by
  intro clear
  have own : writingFlag.toNat.testBit 63 = true := by decide
  have bits := congrArg (fun word => (UInt64.toNat word).testBit 63) clear
  simp only [UInt64.toNat_and, UInt64.toNat_or, Nat.testBit_and, Nat.testBit_or, own, Bool.or_true, Bool.and_true,
    UInt64.toNat_zero, Nat.zero_testBit, Bool.true_eq_false] at bits

theorem flag_injective (leftSmall : left.toNat < 2 ^ 63) (rightSmall : right.toNat < 2 ^ 63)
    (same : left ||| writingFlag = right ||| writingFlag) : left = right := by
  have numbers := congrArg UInt64.toNat same
  rw [flag_toNat leftSmall, flag_toNat rightSmall] at numbers
  exact UInt64.toNat_inj.mp (by omega)

end Flags

section Texts

variable {formatted : Bytes} {copy len w : Nat}

/-- The bytes of a word that belong to the record. -/
theorem take_wordOf (whole : copy ≤ formatted.length) (short : len ≤ copy) (more : 8 * w < len) :
    (wordOf (formatted.take copy) w).take (len - 8 * w) = (formatted.drop (8 * w)).take (min 8 (len - 8 * w)) := by
  have part : ((formatted.take copy).drop (8 * w)).take 8 = (formatted.drop (8 * w)).take (min 8 (copy - 8 * w)) := by
    rw [List.drop_take, List.take_take]
  have length : ((formatted.drop (8 * w)).take (min 8 (copy - 8 * w))).length = min 8 (copy - 8 * w) := by
    rw [List.length_take, List.length_drop]
    omega
  simp only [wordOf, part]
  rcases Nat.le_total 8 (len - 8 * w) with long | small
  · rw [length, show min 8 (copy - 8 * w) = 8 by omega, Nat.min_eq_left long]
    rw [Nat.sub_self, List.replicate_zero, List.append_nil, List.take_of_length_le]
    rw [List.length_take]
    omega
  · rw [List.take_append_of_le_length (by omega), List.take_take]
    congr 1
    omega

/-- A record is put together from its words. -/
theorem take_next_word (whole : copy ≤ formatted.length) (short : len ≤ copy) (more : 8 * w < len) :
    (formatted.take len).take (8 * w) ++ (wordOf (formatted.take copy) w).take (len - 8 * w) =
      (formatted.take len).take (8 * (w + 1)) := by
  rw [take_wordOf whole short more, Nat.mul_succ, List.take_add, List.drop_take, List.take_take, List.take_take]

theorem set_last_take (inside : dumpCopyMax ≤ formatted.length) :
    (formatted.take dumpCopyMax).set (dumpCopyMax - 1) newline = formatted.take (dumpCopyMax - 1) ++ [newline] := by
  have split : formatted.take dumpCopyMax =
      formatted.take (dumpCopyMax - 1) ++ (formatted.drop (dumpCopyMax - 1)).take 1 := by
    rw [← List.take_add]
    rfl
  have length : (formatted.take (dumpCopyMax - 1)).length = dumpCopyMax - 1 := by
    rw [List.length_take]
    simp only [dumpCopyMax] at inside ⊢
    omega
  obtain ⟨last, rest, tail⟩ : ∃ last rest, formatted.drop (dumpCopyMax - 1) = last :: rest := by
    apply List.exists_cons_of_ne_nil
    rw [ne_eq, List.drop_eq_nil_iff]
    simp only [dumpCopyMax] at inside ⊢
    omega
  rw [split, tail, List.set_append_right _ _ length.le, length, Nat.sub_self]
  rfl

end Texts

/-- A call has kept its record under this number. -/
def Kept (state : State) (gen : UInt64) (formatted : Bytes) : Prop :=
  ∃ id, state.calls id = .returned formatted gen true

/-- The slot holds what `submit` puts into it of a record. -/
structure Published (state : State) (slot : Slot) (formatted : Bytes) : Prop where
  len : slot.len = UInt32.ofNat (state.copyLen formatted)
  data : ∀ w, 8 * w < state.copyLen formatted →
    slot.data[w]? = some (wordOf (formatted.take (state.copyLen formatted)) w)

/-- The numbers of the calls. -/
structure Numbering (state : State) : Prop where
  below : ∀ id seq, (state.calls id).seq? = some seq → seq.toNat < state.writeSeq
  apart : ∀ id other seq, (state.calls id).seq? = some seq → (state.calls other).seq? = some seq → id = other

/-- A slot is free, or some call is writing into it, or it holds a record. -/
def SlotSound (state : State) (index : Nat) : Prop :=
  (state.ring index).gen = slotFree ∨
    (∃ id seq, (state.calls id).owns? = some seq ∧ state.place seq = index ∧
      (state.ring index).gen = seq ||| writingFlag) ∨
    ∃ formatted, Kept state (state.ring index).gen formatted ∧ state.place (state.ring index).gen = index ∧
      Published state (state.ring index) formatted

/-- What a call has done to its slot so far. -/
def CallSound (state : State) : SubmitPhase → Prop
  | .claiming _ _ cur => cur &&& writingFlag = 0
  | .copying formatted seq w => (state.ring (state.place seq)).gen = seq ||| writingFlag ∧
      ∀ v < w, 8 * v < state.copyLen formatted →
        (state.ring (state.place seq)).data[v]? = some (wordOf (formatted.take (state.copyLen formatted)) v)
  | .publishing formatted seq => (state.ring (state.place seq)).gen = seq ||| writingFlag ∧
      Published state (state.ring (state.place seq)) formatted
  | _ => True

/-- A dump has copied the beginning of a record. -/
structure Loaded (state : State) (formatted : Bytes) (len : Nat) (truncated : Bool) (buf : Bytes) (w : Nat) : Prop where
  size : len = min (state.copyLen formatted % 2 ^ 32) dumpCopyMax
  cut : truncated = decide (dumpCopyMax < state.copyLen formatted % 2 ^ 32)
  copied : buf = (formatted.take len).take (8 * w)

/-- What a dump has copied counts as long as the generation is still the same. -/
def DumpSound (state : State) : DumpPhase → Prop
  | .found i _ gen => ∃ formatted, Kept state gen formatted ∧ state.place gen = i % state.slotsCap
  | .loading i _ gen len truncated buf w => len ≤ state.slotBytes ∧
      ∃ formatted, Kept state gen formatted ∧ state.place gen = i % state.slotsCap ∧
        ((state.ring (i % state.slotsCap)).gen = gen → Loaded state formatted len truncated buf w)
  | _ => True

structure Sound (state : State) : Prop where
  positive : 0 < state.slotsCap
  numbering : Numbering state
  shaped : ∀ index, (state.ring index).data.length = state.slotWords ∧ (state.ring index).len.toNat ≤ state.slotBytes
  slots : ∀ index, SlotSound state index
  calls : ∀ id, CallSound state (state.calls id)
  dumps : ∀ dump, DumpSound state (state.dumps dump)
  written : ∀ dump, ∀ chunk ∈ state.written dump, ∃ formatted, Kept state chunk.1 formatted ∧
    chunk.2 = printed state.slotBytes formatted

/-- As many numbers as the generations have room for. -/
def Unexhausted (state : State) : Prop := state.writeSeq < 2 ^ 63

variable {state after : State}

theorem Numbering.small (numbering : Numbering state) (unexhausted : Unexhausted state) {id : Nat} {seq : UInt64}
    (given : (state.calls id).seq? = some seq) : seq.toNat < 2 ^ 63 - 1 := by
  have below := numbering.below id seq given
  have few : state.writeSeq < 2 ^ 63 := unexhausted
  omega

theorem SubmitPhase.seq?_of_owns? {phase : SubmitPhase} {seq : UInt64} (owns : phase.owns? = some seq) :
    phase.seq? = some seq := by
  cases phase <;> first | exact owns | cases owns

theorem Numbering.kept_small (numbering : Numbering state) (unexhausted : Unexhausted state) {gen : UInt64}
    {formatted : Bytes} (kept : Kept state gen formatted) : gen.toNat < 2 ^ 63 - 1 := by
  obtain ⟨id, returned⟩ := kept
  exact numbering.small unexhausted (by rw [returned]; rfl)

theorem Numbering.kept_clear (numbering : Numbering state) (unexhausted : Unexhausted state) {gen : UInt64}
    {formatted : Bytes} (kept : Kept state gen formatted) : gen &&& writingFlag = 0 := by
  have small := numbering.kept_small unexhausted kept
  exact clear_of_lt (by omega)

theorem Numbering.kept_unique (numbering : Numbering state) {gen : UInt64} {formatted other : Bytes}
    (one : Kept state gen formatted) (another : Kept state gen other) : formatted = other := by
  obtain ⟨id, returned⟩ := one
  obtain ⟨second, also⟩ := another
  have same := numbering.apart id second gen (by rw [returned]; rfl) (by rw [also]; rfl)
  subst same
  rw [returned] at also
  cases also
  rfl

theorem Sound.owned (sound : Sound state) {id : Nat} {seq : UInt64} (owns : (state.calls id).owns? = some seq) :
    (state.ring (state.place seq)).gen = seq ||| writingFlag := by
  have progress := sound.calls id
  cases phase : state.calls id with
  | copying formatted number w =>
    rw [phase] at owns progress
    cases owns
    exact progress.1
  | publishing formatted number =>
    rw [phase] at owns progress
    cases owns
    exact progress.1
  | _ => simp [phase, SubmitPhase.owns?] at owns

/-- Two calls never own one slot. -/
theorem Sound.owner_unique (sound : Sound state) (unexhausted : Unexhausted state) {id other : Nat} {seq another : UInt64}
    (one : (state.calls id).owns? = some seq) (second : (state.calls other).owns? = some another)
    (same : state.place seq = state.place another) : id = other := by
  have gens := sound.owned one
  rw [same, sound.owned second] at gens
  have numbered := SubmitPhase.seq?_of_owns? one
  have alsoNumbered := SubmitPhase.seq?_of_owns? second
  have small := sound.numbering.small unexhausted numbered
  have otherSmall := sound.numbering.small unexhausted alsoNumbered
  rw [flag_injective (by omega) (by omega) gens] at alsoNumbered
  exact sound.numbering.apart id other seq numbered alsoNumbered

/-- What the steps of writers leave to the dumps: records stay kept, and a generation
that a record was kept under does not come back. -/
structure Extends (state after : State) : Prop where
  slotsCap : after.slotsCap = state.slotsCap
  slotBytes : after.slotBytes = state.slotBytes
  kept : ∀ {gen formatted}, Kept state gen formatted → Kept after gen formatted
  gens : ∀ index {gen formatted}, Kept state gen formatted → (after.ring index).gen = gen → (state.ring index).gen = gen

theorem DumpSound.extend {phase : DumpPhase} (sound : DumpSound state phase) (grows : Extends state after) :
    DumpSound after phase := by
  have place : after.place = state.place := by
    funext seq
    rw [State.place, State.place, grows.slotsCap]
  cases phase with
  | found i currSeq gen =>
    obtain ⟨formatted, kept, here⟩ := sound
    exact ⟨formatted, grows.kept kept, by rw [place, grows.slotsCap, here]⟩
  | loading i currSeq gen len truncated buf w =>
    obtain ⟨bounded, formatted, kept, here, loaded⟩ := sound
    refine ⟨by rwa [grows.slotBytes], formatted, grows.kept kept, by rw [place, grows.slotsCap, here], ?_⟩
    intro same
    rw [grows.slotsCap] at same
    obtain ⟨size, cut, copied⟩ := loaded (grows.gens _ kept same)
    have copyLen : after.copyLen formatted = state.copyLen formatted := by
      rw [State.copyLen, State.copyLen, grows.slotBytes]
    exact ⟨by rw [copyLen, size], by rw [copyLen, cut], copied⟩
  | _ => trivial

theorem kept_enter {id : Nat} (phase : SubmitPhase) (pending : ¬(state.calls id).Finished) {gen : UInt64}
    {formatted : Bytes} (kept : Kept state gen formatted) : Kept (state.enter id phase) gen formatted := by
  obtain ⟨other, returned⟩ := kept
  have different : other ≠ id := by
    rintro rfl
    exact pending ⟨formatted, gen, true, returned⟩
  exact ⟨other, by rw [State.enter_calls, Function.update_of_ne different, returned]⟩

theorem SlotSound.frame {index : Nat} (sound : SlotSound state index) (grows : Extends state after)
    (ring : after.ring index = state.ring index)
    (owners : ∀ id seq, (state.calls id).owns? = some seq → state.place seq = index →
      (after.calls id).owns? = some seq) : SlotSound after index := by
  have place : after.place = state.place := by
    funext seq
    rw [State.place, State.place, grows.slotsCap]
  rcases sound with free | ⟨id, seq, owns, here, gen⟩ | ⟨formatted, kept, here, published⟩
  · exact .inl (ring ▸ free)
  · exact .inr (.inl ⟨id, seq, owners id seq owns here, by rw [place, here], by rw [ring, gen]⟩)
  · refine .inr (.inr ⟨formatted, ?_, ?_, ?_⟩)
    · rw [ring]
      exact grows.kept kept
    · rw [ring, place, here]
    · have copyLen : after.copyLen formatted = state.copyLen formatted := by
        rw [State.copyLen, State.copyLen, grows.slotBytes]
      rw [ring]
      exact ⟨by rw [published.len, copyLen], fun w more => by rw [copyLen] at more ⊢; exact published.data w more⟩

theorem CallSound.frame {phase : SubmitPhase} (sound : CallSound state phase) (slotsCap : after.slotsCap = state.slotsCap)
    (slotBytes : after.slotBytes = state.slotBytes)
    (ring : ∀ seq, phase.owns? = some seq → after.ring (state.place seq) = state.ring (state.place seq)) :
    CallSound after phase := by
  have place : ∀ seq, after.place seq = state.place seq := fun seq => by rw [State.place, State.place, slotsCap]
  have copyLen : ∀ formatted, after.copyLen formatted = state.copyLen formatted :=
    fun formatted => by rw [State.copyLen, State.copyLen, slotBytes]
  cases phase with
  | claiming formatted seq cur => exact sound
  | copying formatted seq w =>
    obtain ⟨gen, words⟩ := sound
    refine ⟨by rw [place, ring seq rfl, gen], fun v before more => ?_⟩
    rw [copyLen] at more ⊢
    rw [place, ring seq rfl, words v before more]
  | publishing formatted seq =>
    obtain ⟨gen, published⟩ := sound
    refine ⟨by rw [place, ring seq rfl, gen], ?_⟩
    rw [place, ring seq rfl]
    exact ⟨by rw [published.len, copyLen], fun w more => by rw [copyLen] at more ⊢; exact published.data w more⟩
  | _ => trivial

/-- A step of one writer: it changes its own phase and at most one slot. -/
structure Changes (state after : State) (id index : Nat) : Prop where
  slotsCap : after.slotsCap = state.slotsCap
  slotBytes : after.slotBytes = state.slotBytes
  calls : ∀ other ≠ id, after.calls other = state.calls other
  ring : ∀ other ≠ index, after.ring other = state.ring other
  dumps : after.dumps = state.dumps
  written : after.written = state.written
  pending : ¬(state.calls id).Finished
  /-- A generation under which a record was kept does not come back. -/
  gens : ∀ {gen formatted}, Kept state gen formatted → (after.ring index).gen = gen → (state.ring index).gen = gen

theorem Changes.extends {id index : Nat} (changes : Changes state after id index) : Extends state after where
  slotsCap := changes.slotsCap
  slotBytes := changes.slotBytes
  kept := by
    rintro gen formatted ⟨other, returned⟩
    have different : other ≠ id := by
      rintro rfl
      exact changes.pending ⟨formatted, gen, true, returned⟩
    exact ⟨other, by rw [changes.calls other different, returned]⟩
  gens := by
    intro other gen formatted kept same
    by_cases here : other = index
    · subst here
      exact changes.gens kept same
    · rwa [changes.ring other here] at same

theorem Sound.change {id index : Nat} (sound : Sound state) (changes : Changes state after id index)
    (numbering : Numbering after)
    (shaped : (after.ring index).data.length = state.slotWords ∧ (after.ring index).len.toNat ≤ state.slotBytes)
    (alone : ∀ other ≠ id, ∀ seq, (state.calls other).owns? = some seq → state.place seq = index →
      after.ring index = state.ring index)
    (own : ∀ seq, (state.calls id).owns? = some seq → state.place seq = index) (slot : SlotSound after index)
    (call : CallSound after (after.calls id)) : Sound after where
  positive := changes.slotsCap ▸ sound.positive
  numbering := numbering
  shaped := by
    intro other
    have words : after.slotWords = state.slotWords := by rw [State.slotWords, State.slotWords, changes.slotBytes]
    rw [words, changes.slotBytes]
    by_cases here : other = index
    · exact here ▸ shaped
    · rw [changes.ring other here]
      exact sound.shaped other
  slots := by
    intro other
    by_cases here : other = index
    · exact here ▸ slot
    · refine (sound.slots other).frame changes.extends (changes.ring other here) ?_
      intro owner seq owns place
      have different : owner ≠ id := by
        rintro rfl
        exact here (place.symm.trans (own seq owns))
      rw [changes.calls owner different, owns]
  calls := by
    intro other
    by_cases same : other = id
    · exact same ▸ call
    · rw [changes.calls other same]
      refine (sound.calls other).frame changes.slotsCap changes.slotBytes ?_
      intro seq owns
      by_cases here : state.place seq = index
      · rw [here]
        exact alone other same seq owns here
      · exact changes.ring _ here
  dumps := fun dump => changes.dumps ▸ (sound.dumps dump).extend changes.extends
  written := by
    rw [changes.written, changes.slotBytes]
    intro dump chunk member
    obtain ⟨formatted, kept, same⟩ := sound.written dump chunk member
    exact ⟨formatted, changes.extends.kept kept, same⟩

/-- A step that changes no slot, of a call that owns none. -/
theorem Sound.quiet {id count : Nat} (sound : Sound state) {phase : SubmitPhase} (pending : ¬(state.calls id).Finished)
    (numbering : Numbering { state.enter id phase with writeSeq := count }) (before : (state.calls id).owns? = none)
    (call : CallSound state phase) (later : phase.owns? = none) :
    Sound { state.enter id phase with writeSeq := count } := by
  have changes : Changes state { state.enter id phase with writeSeq := count } id 0 :=
    ⟨rfl, rfl, fun other different => Function.update_of_ne different .., fun _ _ => rfl, rfl, rfl, pending,
      fun _ same => same⟩
  refine sound.change changes numbering (sound.shaped 0) (fun _ _ _ _ _ => rfl) ?_ ?_ ?_
  · intro seq owns
    rw [before] at owns
    cases owns
  · refine (sound.slots 0).frame changes.extends rfl ?_
    intro owner seq owns _
    have different : owner ≠ id := by
      rintro rfl
      rw [before] at owns
      cases owns
    rw [changes.calls owner different, owns]
  · change CallSound _ (Function.update state.calls id phase id)
    rw [Function.update_self]
    refine call.frame rfl rfl ?_
    intro seq owns
    rw [later] at owns
    cases owns

theorem Numbering.enter (numbering : Numbering state) {id : Nat} {phase : SubmitPhase}
    (calls : after.calls = Function.update state.calls id phase) (count : after.writeSeq = state.writeSeq)
    (same : phase.seq? = (state.calls id).seq?) : Numbering after := by
  have unchanged : ∀ other, (after.calls other).seq? = (state.calls other).seq? := by
    intro other
    rw [calls, Function.update_apply]
    split
    · rename_i here
      rw [here, same]
    · rfl
  constructor
  · intro other seq given
    rw [unchanged] at given
    exact count ▸ numbering.below other seq given
  · intro one another seq given also
    rw [unchanged] at given also
    exact numbering.apart one another seq given also

/-- A number is given out once. -/
theorem Numbering.give (numbering : Numbering state) {id : Nat} {formatted : Bytes} (few : state.writeSeq < 2 ^ 63) :
    Numbering { state.enter id (.numbered formatted (UInt64.ofNat state.writeSeq)) with
      writeSeq := state.writeSeq + 1 } := by
  have number : (UInt64.ofNat state.writeSeq).toNat = state.writeSeq := UInt64.toNat_ofNat_of_lt' (few.trans (by decide))
  have given : ∀ {other seq}, (Function.update state.calls id
      (.numbered formatted (UInt64.ofNat state.writeSeq)) other).seq? = some seq →
      other = id ∧ seq.toNat = state.writeSeq ∨ (state.calls other).seq? = some seq ∧ seq.toNat < state.writeSeq := by
    intro other seq given
    rw [Function.update_apply] at given
    split at given
    · rename_i here
      cases given
      exact .inl ⟨here, number⟩
    · exact .inr ⟨given, numbering.below other seq given⟩
  constructor
  · intro other seq numbered
    change seq.toNat < state.writeSeq + 1
    rcases given numbered with ⟨_, equal⟩ | ⟨_, less⟩ <;> omega
  · intro one another seq numbered also
    rcases given numbered with ⟨here, equal⟩ | ⟨earlier, less⟩ <;>
      rcases given also with ⟨there, alsoEqual⟩ | ⟨alsoEarlier, alsoLess⟩
    · exact here.trans there.symm
    · omega
    · omega
    · exact numbering.apart one another seq earlier alsoEarlier

/-- A step that changes the slot of its own number, which no other call owns. -/
theorem Sound.reslot {id : Nat} {seq : UInt64} {phase : SubmitPhase} {slot : Slot} (sound : Sound state)
    (pending : ¬(state.calls id).Finished) (numbered : (state.calls id).seq? = some seq) (same : phase.seq? = some seq)
    (free : ∀ other ≠ id, ∀ another, (state.calls other).owns? = some another → state.place another ≠ state.place seq)
    (shaped : slot.data.length = state.slotWords ∧ slot.len.toNat ≤ state.slotBytes)
    (gens : ∀ {gen formatted}, Kept state gen formatted → slot.gen = gen → (state.ring (state.place seq)).gen = gen)
    (held : SlotSound ((state.setSlot (state.place seq) slot).enter id phase) (state.place seq))
    (call : CallSound ((state.setSlot (state.place seq) slot).enter id phase) phase) :
    Sound ((state.setSlot (state.place seq) slot).enter id phase) := by
  have here : ((state.setSlot (state.place seq) slot).enter id phase).ring (state.place seq) = slot := by
    rw [State.enter_ring, State.setSlot_ring, Function.update_self]
  have changes : Changes state ((state.setSlot (state.place seq) slot).enter id phase) id (state.place seq) := by
    refine ⟨rfl, rfl, fun other different => Function.update_of_ne different .., ?_, rfl, rfl, pending, ?_⟩
    · intro other different
      rw [State.enter_ring, State.setSlot_ring, Function.update_of_ne different]
    · intro gen formatted kept equal
      rw [here] at equal
      exact gens kept equal
  refine sound.change changes (sound.numbering.enter rfl rfl (same.trans numbered.symm)) (by rwa [here]) ?_ ?_ held ?_
  · intro other different another owns place
    exact absurd place (free other different another owns)
  · intro another owns
    rw [SubmitPhase.seq?_of_owns? owns, Option.some.injEq] at numbered
    rw [numbered]
  · rw [State.enter_calls, Function.update_self]
    exact call

theorem Sound.claim {id : Nat} {formatted : Bytes} {seq cur : UInt64} (sound : Sound state)
    (unexhausted : Unexhausted state) (was : state.calls id = .claiming formatted seq cur)
    (same : (state.ring (state.place seq)).gen = cur) :
    Sound ((state.setSlot (state.place seq)
      { state.ring (state.place seq) with gen := seq ||| writingFlag }).enter id (.copying formatted seq 0)) := by
  have clear : cur &&& writingFlag = 0 := by
    have claiming := sound.calls id
    rw [was] at claiming
    exact claiming
  refine sound.reslot (by simp [was, SubmitPhase.Finished]) (by rw [was]; rfl) rfl ?_ (sound.shaped _) ?_ ?_ ?_
  · intro other different another owns place
    have flag := sound.owned owns
    rw [place, same] at flag
    exact flagged another (flag ▸ clear)
  · intro gen text kept equal
    have unflagged := sound.numbering.kept_clear unexhausted kept
    rw [← equal] at unflagged
    exact absurd unflagged (flagged seq)
  · refine .inr (.inl ⟨id, seq, ?_, rfl, ?_⟩)
    · rw [State.enter_calls, Function.update_self]
      rfl
    · rw [State.enter_ring, State.setSlot_ring, Function.update_self]
  · refine ⟨?_, fun v before => absurd before (Nat.not_lt_zero v)⟩
    change ((state.setSlot (state.place seq) _).ring (state.place seq)).gen = _
    rw [State.setSlot_ring, Function.update_self]

/-- A step inside a slot that the call owns before it. -/
theorem Sound.fill {id : Nat} {seq : UInt64} {phase : SubmitPhase} {slot : Slot} (sound : Sound state)
    (unexhausted : Unexhausted state) (owns : (state.calls id).owns? = some seq) (same : phase.seq? = some seq)
    (shaped : slot.data.length = state.slotWords ∧ slot.len.toNat ≤ state.slotBytes)
    (gen : slot.gen = seq ||| writingFlag ∨ slot.gen = seq)
    (held : SlotSound ((state.setSlot (state.place seq) slot).enter id phase) (state.place seq))
    (call : CallSound ((state.setSlot (state.place seq) slot).enter id phase) phase) :
    Sound ((state.setSlot (state.place seq) slot).enter id phase) := by
  have numbered := SubmitPhase.seq?_of_owns? owns
  have pending : ¬(state.calls id).Finished := by
    rintro ⟨formatted, number, kept, returned⟩
    rw [returned] at owns
    cases owns
  refine sound.reslot pending numbered same ?_ shaped ?_ held call
  · intro other different another alsoOwns place
    exact different (sound.owner_unique unexhausted alsoOwns owns place)
  · intro number text kept equal
    rcases gen with flag | plain
    · rw [sound.owned owns, ← flag, equal]
    · obtain ⟨other, returned⟩ := kept
      rw [← equal, plain] at returned
      have here := sound.numbering.apart other id seq (by rw [returned]; rfl) numbered
      exact absurd ⟨_, _, _, here ▸ returned⟩ pending

theorem Sound.word {id w : Nat} {formatted : Bytes} {seq : UInt64} (sound : Sound state) (unexhausted : Unexhausted state)
    (was : state.calls id = .copying formatted seq w) (inside : w < (state.ring (state.place seq)).data.length) :
    Sound ((state.setSlot (state.place seq)
      { state.ring (state.place seq) with
        data := (state.ring (state.place seq)).data.set w (wordOf (formatted.take (state.copyLen formatted)) w) }).enter
      id (.copying formatted seq (w + 1))) := by
  have progress := sound.calls id
  rw [was] at progress
  obtain ⟨gen, words⟩ := progress
  have shaped := sound.shaped (state.place seq)
  refine sound.fill unexhausted (by rw [was]; rfl) rfl ⟨?_, shaped.2⟩ (.inl gen) ?_ ?_
  · rw [List.length_set]
    exact shaped.1
  · refine .inr (.inl ⟨id, seq, ?_, rfl, ?_⟩)
    · rw [State.enter_calls, Function.update_self]
      rfl
    · rw [State.enter_ring, State.setSlot_ring, Function.update_self]
      exact gen
  · change ((state.setSlot (state.place seq) _).ring (state.place seq)).gen = _ ∧ ∀ v < w + 1,
      8 * v < state.copyLen formatted → ((state.setSlot (state.place seq) _).ring (state.place seq)).data[v]? = _
    rw [State.setSlot_ring, Function.update_self]
    refine ⟨gen, fun v before more => ?_⟩
    rcases Nat.lt_succ_iff_lt_or_eq.mp before with earlier | rfl
    · rw [List.getElem?_set_ne (by omega)]
      exact words v earlier more
    · exact List.getElem?_set_self inside

theorem copyLen_toNat_le (state : State) (formatted : Bytes) :
    (UInt32.ofNat (state.copyLen formatted)).toNat ≤ state.slotBytes :=
  (Nat.mod_le _ _).trans (Nat.min_le_right _ _)

theorem Sound.size {id w : Nat} {formatted : Bytes} {seq : UInt64} (sound : Sound state) (unexhausted : Unexhausted state)
    (was : state.calls id = .copying formatted seq w) (done : state.copyLen formatted ≤ 8 * w) :
    Sound ((state.setSlot (state.place seq)
      { state.ring (state.place seq) with len := UInt32.ofNat (state.copyLen formatted) }).enter id
      (.publishing formatted seq)) := by
  have progress := sound.calls id
  rw [was] at progress
  obtain ⟨gen, words⟩ := progress
  refine sound.fill unexhausted (by rw [was]; rfl) rfl
    ⟨(sound.shaped _).1, copyLen_toNat_le state formatted⟩ (.inl gen) ?_ ?_
  · refine .inr (.inl ⟨id, seq, ?_, rfl, ?_⟩)
    · rw [State.enter_calls, Function.update_self]
      rfl
    · rw [State.enter_ring, State.setSlot_ring, Function.update_self]
      exact gen
  · change ((state.setSlot (state.place seq) _).ring (state.place seq)).gen = _ ∧
      Published _ ((state.setSlot (state.place seq) _).ring (state.place seq)) formatted
    rw [State.setSlot_ring, Function.update_self]
    refine ⟨gen, rfl, fun v more => words v ?_ more⟩
    have bounded : 8 * v < state.copyLen formatted := more
    omega

theorem Sound.publish {id : Nat} {formatted : Bytes} {seq : UInt64} (sound : Sound state) (unexhausted : Unexhausted state)
    (was : state.calls id = .publishing formatted seq) :
    Sound ((state.setSlot (state.place seq) { state.ring (state.place seq) with gen := seq }).enter id
      (.returned formatted seq true)) := by
  have progress := sound.calls id
  rw [was] at progress
  obtain ⟨gen, published⟩ := progress
  refine sound.fill unexhausted (by rw [was]; rfl) rfl (sound.shaped _) (.inr rfl) ?_ trivial
  refine .inr (.inr ⟨formatted, ?_⟩)
  rw [State.enter_ring, State.setSlot_ring, Function.update_self]
  refine ⟨⟨id, ?_⟩, rfl, published.len, published.data⟩
  rw [State.enter_calls, Function.update_self]

theorem Submits.sound (submits : Submits state after) (sound : Sound state) (unexhausted : Unexhausted after) :
    Sound after := by
  cases submits with
  | call id formatted was =>
    exact sound.quiet (by simp [was, SubmitPhase.Finished]) (sound.numbering.enter rfl rfl (by rw [was]; rfl))
      (by rw [was]; rfl) trivial rfl
  | number id formatted was =>
    have few : state.writeSeq + 1 < 2 ^ 63 := unexhausted
    exact sound.quiet (by simp [was, SubmitPhase.Finished]) (sound.numbering.give (by omega)) (by rw [was]; rfl)
      trivial rfl
  | taken id formatted seq was marked =>
    exact sound.quiet (by simp [was, SubmitPhase.Finished]) (sound.numbering.enter rfl rfl (by rw [was]; rfl))
      (by rw [was]; rfl) trivial rfl
  | load id formatted seq was clear =>
    exact sound.quiet (by simp [was, SubmitPhase.Finished]) (sound.numbering.enter rfl rfl (by rw [was]; rfl))
      (by rw [was]; rfl) clear rfl
  | claim id formatted seq cur was same => exact sound.claim unexhausted was same
  | lose id formatted seq cur was other =>
    exact sound.quiet (by simp [was, SubmitPhase.Finished]) (sound.numbering.enter rfl rfl (by rw [was]; rfl))
      (by rw [was]; rfl) trivial rfl
  | word id formatted seq w was more inside => exact sound.word unexhausted was inside
  | size id formatted seq w was done => exact sound.size unexhausted was done
  | publish id formatted seq was => exact sound.publish unexhausted was

/-- A slot that shows the generation of a record holds that record. -/
theorem Sound.published (sound : Sound state) (unexhausted : Unexhausted state) {index : Nat} {gen : UInt64}
    {formatted : Bytes} (kept : Kept state gen formatted) (shows : (state.ring index).gen = gen) :
    Published state (state.ring index) formatted := by
  rcases sound.slots index with free | ⟨id, seq, owns, here, flag⟩ | ⟨other, keptOther, here, published⟩
  · have small := sound.numbering.kept_small unexhausted kept
    rw [← shows, free] at small
    exact absurd small (by decide)
  · have clear := sound.numbering.kept_clear unexhausted kept
    rw [← shows, flag] at clear
    exact absurd clear (flagged seq)
  · rw [shows] at keptOther
    rwa [sound.numbering.kept_unique kept keptOther]

theorem Published.len_toNat {slot : Slot} {formatted : Bytes} (published : Published state slot formatted) :
    slot.len.toNat = state.copyLen formatted % 2 ^ 32 := by
  rw [published.len]
  rfl

theorem Looks.sound {phase next : DumpPhase} (looks : Looks state phase next) (sound : Sound state)
    (unexhausted : Unexhausted state) (before : DumpSound state phase) : DumpSound state next := by
  cases looks with
  | find i currSeq more used clear =>
    rcases sound.slots (i % state.slotsCap) with free | ⟨id, seq, owns, here, flag⟩ | ⟨formatted, kept, here, published⟩
    · exact absurd free used
    · rw [flag] at clear
      exact absurd clear (flagged seq)
    · exact ⟨formatted, kept, here⟩
  | measure i currSeq gen filled =>
    obtain ⟨formatted, kept, here⟩ := before
    refine ⟨(Nat.min_le_left _ _).trans (sound.shaped _).2, formatted, kept, here, fun shows => ?_⟩
    have size := (sound.published unexhausted kept shows).len_toNat
    exact ⟨by rw [size], by rw [size], rfl⟩
  | copy i currSeq gen len truncated buf w word more read =>
    obtain ⟨bounded, formatted, kept, here, loaded⟩ := before
    refine ⟨bounded, formatted, kept, here, fun shows => ?_⟩
    obtain ⟨size, cut, copied⟩ := loaded shows
    have short : len ≤ state.copyLen formatted := size ▸ (Nat.min_le_left _ _).trans (Nat.mod_le _ _)
    have stored := (sound.published unexhausted kept shows).data w (more.trans_le short)
    rw [read, Option.some.injEq] at stored
    refine ⟨size, cut, ?_⟩
    rw [copied, stored]
    exact take_next_word (Nat.min_le_left _ _) short more
  | _ => trivial

/-- What has been copied to the end is what is to be printed. -/
theorem Loaded.printed {formatted buf : Bytes} {len w : Nat} {truncated : Bool}
    (loaded : Loaded state formatted len truncated buf w) (done : len ≤ 8 * w) :
    (if truncated then buf.set (len - 1) newline else buf) = RingBufferSink.printed state.slotBytes formatted := by
  obtain ⟨size, cut, copied⟩ := loaded
  have short : len ≤ formatted.length := by
    rw [size]
    exact (Nat.min_le_left _ _).trans ((Nat.mod_le _ _).trans (Nat.min_le_left _ _))
  have whole : buf = formatted.take len := by
    rw [copied, List.take_of_length_le]
    exact (List.length_take_le _ _).trans done
  have unfolded : RingBufferSink.printed state.slotBytes formatted =
      if dumpCopyMax < state.copyLen formatted % 2 ^ 32 then formatted.take (dumpCopyMax - 1) ++ [newline]
      else formatted.take (state.copyLen formatted % 2 ^ 32) := rfl
  rw [unfolded]
  by_cases long : dumpCopyMax < state.copyLen formatted % 2 ^ 32
  · rw [Nat.min_eq_right long.le] at size
    subst size
    rw [if_pos long, cut, decide_eq_true long, if_pos rfl, whole]
    exact set_last_take short
  · rw [Nat.min_eq_left (Nat.le_of_not_lt long)] at size
    rw [if_neg long, cut, decide_eq_false long, if_neg Bool.false_ne_true, whole, size]

/-- A step of a dump changes nothing that writers look at. -/
theorem Sound.reread (sound : Sound state) (grows : Extends state after) (ring : after.ring = state.ring)
    (calls : after.calls = state.calls) (count : after.writeSeq = state.writeSeq)
    (dumps : ∀ dump, DumpSound state (after.dumps dump))
    (written : ∀ dump, ∀ chunk ∈ after.written dump, ∃ formatted, Kept state chunk.1 formatted ∧
      chunk.2 = printed state.slotBytes formatted) : Sound after where
  positive := grows.slotsCap ▸ sound.positive
  numbering := by
    constructor
    · rw [calls, count]
      exact sound.numbering.below
    · rw [calls]
      exact sound.numbering.apart
  shaped := by
    rw [ring, State.slotWords, grows.slotBytes]
    exact sound.shaped
  slots := by
    intro index
    refine (sound.slots index).frame grows (by rw [ring]) ?_
    intro id seq owns _
    rw [calls, owns]
  calls := by
    intro id
    rw [calls]
    exact (sound.calls id).frame grows.slotsCap grows.slotBytes fun seq _ => by rw [ring]
  dumps := fun dump => (dumps dump).extend grows
  written := by
    intro dump chunk member
    obtain ⟨formatted, kept, same⟩ := written dump chunk member
    exact ⟨formatted, grows.kept kept, grows.slotBytes ▸ same⟩

theorem Reads.sound (reads : Reads state after) (sound : Sound state) (unexhausted : Unexhausted state) :
    Sound after := by
  cases reads with
  | look dump phase looks =>
    refine sound.reread ⟨rfl, rfl, fun kept => kept, fun _ _ _ _ same => same⟩ rfl rfl rfl ?_ sound.written
    intro other
    change DumpSound state (Function.update state.dumps dump phase other)
    rw [Function.update_apply]
    split
    · exact looks.sound sound unexhausted (sound.dumps dump)
    · exact sound.dumps other
  | write dump i currSeq gen len truncated buf w was done unchanged =>
    refine sound.reread ⟨rfl, rfl, fun kept => kept, fun _ _ _ _ same => same⟩ rfl rfl rfl ?_ ?_
    · intro other
      change DumpSound state (Function.update state.dumps dump (.scanning (i + 1) currSeq) other)
      rw [Function.update_apply]
      split
      · trivial
      · exact sound.dumps other
    · intro other chunk member
      change chunk ∈ Function.update state.written dump _ other at member
      rw [Function.update_apply] at member
      split at member
      · rename_i here
        rcases List.mem_append.mp member with earlier | last
        · exact sound.written dump chunk earlier
        · rw [List.mem_singleton] at last
          subst last
          have before := sound.dumps dump
          rw [was] at before
          obtain ⟨_, formatted, kept, _, loaded⟩ := before
          exact ⟨formatted, kept, (loaded unchanged).printed done⟩
      · exact sound.written other chunk member

theorem Reads.unexhausted (reads : Reads state after) : Unexhausted after ↔ Unexhausted state := by
  cases reads <;> exact Iff.rfl

theorem Moves.unexhausted (moves : Moves state after) (unexhausted : Unexhausted after) : Unexhausted state := by
  cases moves with
  | submit submits =>
    cases submits with
    | number id formatted was =>
      have few : state.writeSeq + 1 < 2 ^ 63 := unexhausted
      exact Nat.lt_of_succ_lt few
    | _ => exact unexhausted
  | read reads => exact reads.unexhausted.mp unexhausted

theorem Moves.sound (moves : Moves state after) (sound : Sound state) (unexhausted : Unexhausted after) :
    Sound after := by
  cases moves with
  | submit submits => exact submits.sound sound unexhausted
  | read reads => exact reads.sound sound (reads.unexhausted.mp unexhausted)

end RingBufferSink

end Log

end Enigma
