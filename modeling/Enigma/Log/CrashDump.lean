import Enigma.Log.RingInvariant
import Mathlib.Data.List.Range
import Mathlib.Data.Int.ModEq
import Mathlib.Data.Nat.ModEq

/-! What a crash dump prints and what the ring may lose, over all runs. -/

namespace Enigma

namespace Log

namespace RingBufferSink

variable {state after : State}

/-- What a dump has printed comes from the slots of the numbers before some number. -/
structure Behind (state : State) (dump i currSeq : Nat) : Prop where
  started : currSeq - state.slotsCap ≤ i
  listed : ((state.written dump).map fun chunk => state.place chunk.1).Sublist
    ((List.range' (currSeq - state.slotsCap) (i - (currSeq - state.slotsCap))).map (· % state.slotsCap))

/-- A dump goes once around the ring, so it comes to every slot at most once. -/
def Visited (state : State) (dump : Nat) : DumpPhase → Prop
  | .idle => state.written dump = []
  | .scanning i currSeq => i ≤ currSeq ∧ Behind state dump i currSeq
  | .found i currSeq _ | .loading i currSeq _ _ _ _ _ => i < currSeq ∧ Behind state dump i currSeq
  | .finished currSeq => Behind state dump currSeq currSeq

theorem range_mod_nodup {cap start count : Nat} (short : count ≤ cap) :
    ((List.range' start count).map (· % cap)).Nodup := by
  refine List.Nodup.map_on ?_ List.nodup_range'
  intro left leftMember right rightMember same
  rw [List.mem_range'_1] at leftMember rightMember
  exact Nat.ModEq.eq_of_abs_lt same (by rw [abs_lt]; omega)

theorem Behind.nodup {dump i currSeq : Nat} (behind : Behind state dump i currSeq) (inside : i ≤ currSeq) :
    ((state.written dump).map fun chunk => state.place chunk.1).Nodup :=
  behind.listed.nodup (range_mod_nodup (by omega))

theorem Visited.nodup {dump : Nat} {phase : DumpPhase} (visited : Visited state dump phase) :
    ((state.written dump).map fun chunk => state.place chunk.1).Nodup := by
  cases phase with
  | idle =>
    rw [visited]
    exact List.nodup_nil
  | scanning i currSeq => exact visited.2.nodup visited.1
  | found i currSeq gen => exact visited.2.nodup visited.1.le
  | loading i currSeq gen len truncated buf w => exact visited.2.nodup visited.1.le
  | finished currSeq => exact Behind.nodup visited (Nat.le_refl _)

theorem range_mod_succ {cap start i : Nat} (started : start ≤ i) : (List.range' start (i + 1 - start)).map (· % cap) =
    (List.range' start (i - start)).map (· % cap) ++ [i % cap] := by
  rw [Nat.succ_sub started, List.range'_concat, List.map_append, Nat.one_mul, Nat.add_sub_cancel' started]
  rfl

theorem Behind.next {dump i currSeq : Nat} (behind : Behind state dump i currSeq) :
    Behind state dump (i + 1) currSeq where
  started := behind.started.trans (Nat.le_succ i)
  listed := by
    rw [range_mod_succ behind.started]
    exact behind.listed.trans (List.sublist_append_left _ _)

theorem Looks.visited {dump : Nat} {phase next : DumpPhase} (looks : Looks state phase next)
    (visited : Visited state dump phase) : Visited state dump next := by
  cases looks with
  | begin =>
    have start : (if state.slotsCap < state.writeSeq % 2 ^ 64 then state.writeSeq % 2 ^ 64 - state.slotsCap else 0) =
        state.writeSeq % 2 ^ 64 - state.slotsCap := by
      split <;> omega
    have nothing : state.written dump = [] := visited
    rw [start]
    exact ⟨Nat.sub_le _ _, Nat.le_refl _, by rw [nothing]; exact List.nil_sublist _⟩
  | pass i currSeq more unreadable => exact ⟨more, visited.2.next⟩
  | find i currSeq more used clear => exact ⟨more, visited.2⟩
  | finish i currSeq done =>
    obtain ⟨bounded, behind⟩ := visited
    rwa [Nat.le_antisymm bounded done] at behind
  | hollow i currSeq gen empty => exact ⟨visited.1, visited.2.next⟩
  | measure i currSeq gen filled => exact visited
  | copy i currSeq gen len truncated buf w word more read => exact visited
  | discard i currSeq gen len truncated buf w done changed => exact ⟨visited.1, visited.2.next⟩

theorem Visited.congr {dump : Nat} {phase : DumpPhase} (visited : Visited state dump phase)
    (slotsCap : after.slotsCap = state.slotsCap) (written : after.written dump = state.written dump) :
    Visited after dump phase := by
  have behind : ∀ {i currSeq}, Behind state dump i currSeq → Behind after dump i currSeq := by
    intro i currSeq behind
    have place : ∀ seq, after.place seq = state.place seq := fun seq => by rw [State.place, State.place, slotsCap]
    refine ⟨by rw [slotsCap]; exact behind.started, ?_⟩
    rw [slotsCap, written]
    simp only [place]
    exact behind.listed
  cases phase with
  | idle => exact written.trans visited
  | finished currSeq => exact behind visited
  | _ => exact ⟨visited.1, behind visited.2⟩

theorem Submits.outside (submits : Submits state after) : after.slotsCap = state.slotsCap ∧
    after.slotBytes = state.slotBytes ∧ after.dumps = state.dumps ∧ after.written = state.written := by
  cases submits <;> exact ⟨rfl, rfl, rfl, rfl⟩

theorem Reads.visited (reads : Reads state after) (sound : Sound state)
    (visited : ∀ dump, Visited state dump (state.dumps dump)) (dump : Nat) :
    Visited after dump (after.dumps dump) := by
  cases reads with
  | look other phase looks =>
    change Visited _ dump (Function.update state.dumps other phase dump)
    rw [Function.update_apply]
    split
    · rename_i here
      subst here
      exact (looks.visited (visited dump)).congr rfl rfl
    · exact (visited dump).congr rfl rfl
  | write other i currSeq gen len truncated buf w was done unchanged =>
    change Visited _ dump (Function.update state.dumps other (.scanning (i + 1) currSeq) dump)
    by_cases here : dump = other
    · subst here
      rw [Function.update_self]
      have before := visited dump
      have copied := sound.dumps dump
      rw [was] at before copied
      obtain ⟨more, behind⟩ := before
      obtain ⟨_, _, _, place, _⟩ := copied
      refine ⟨more, behind.started.trans (Nat.le_succ i), ?_⟩
      change ((Function.update state.written dump _ dump).map fun chunk => state.place chunk.1).Sublist
        ((List.range' (currSeq - state.slotsCap) (i + 1 - (currSeq - state.slotsCap))).map (· % state.slotsCap))
      rw [Function.update_self, range_mod_succ behind.started, List.map_append]
      refine behind.listed.append ?_
      rw [List.map_singleton, place]
    · rw [Function.update_of_ne here]
      exact (visited dump).congr rfl (Function.update_of_ne here ..)

theorem Moves.visited (moves : Moves state after) (sound : Sound state)
    (visited : ∀ dump, Visited state dump (state.dumps dump)) (dump : Nat) :
    Visited after dump (after.dumps dump) := by
  cases moves with
  | submit submits =>
    obtain ⟨slotsCap, _, dumps, written⟩ := submits.outside
    rw [dumps]
    exact (visited dump).congr slotsCap (by rw [written])
  | read reads => exact reads.visited sound visited dump

theorem new_sound (slots slotBytes : Nat) : Sound (.new slots slotBytes) where
  positive := by
    change 0 < if slots = 0 then 1024 else slots
    split <;> omega
  numbering := by
    constructor
    · intro id seq given
      cases given
    · intro id other seq given
      cases given
  shaped := fun _ => ⟨List.length_replicate, Nat.zero_le _⟩
  slots := fun _ => .inl rfl
  calls := fun _ => trivial
  dumps := fun _ => trivial
  written := fun _ _ member => absurd member List.not_mem_nil

/-- All that a run keeps, as long as the numbers last. -/
structure Orderly (state : State) : Prop where
  sound : Sound state
  visited : ∀ dump, Visited state dump (state.dumps dump)

theorem run_orderly {acts : List Act} (orderly : Unexhausted state → Orderly state)
    (ran : Interleaving.run step state acts = some after) (unexhausted : Unexhausted after) : Orderly after := by
  refine Interleaving.run_keeps (fun state => Unexhausted state → Orderly state) ?_ orderly ran unexhausted
  intro state after act orderly moved unexhausted
  have moves := step_moves moved
  have before := orderly (moves.unexhausted unexhausted)
  exact ⟨moves.sound before.sound unexhausted, moves.visited before.sound before.visited⟩

theorem new_orderly (slots slotBytes : Nat) : Orderly (.new slots slotBytes) := ⟨new_sound slots slotBytes, fun _ => rfl⟩

/-- Chunks of different slots come from different calls. -/
theorem told_of_kept {chunks : List (UInt64 × Bytes)}
    (printed : ∀ chunk ∈ chunks, ∃ formatted, Kept state chunk.1 formatted ∧
      chunk.2 = RingBufferSink.printed state.slotBytes formatted)
    (apart : (chunks.map fun chunk => state.place chunk.1).Nodup) :
    ∃ records : List (Nat × Bytes), (records.map Prod.fst).Nodup ∧
      (∀ record ∈ records, ∃ seq, seq ∈ chunks.map Prod.fst ∧ state.calls record.1 = .returned record.2 seq true) ∧
      chunks.map Prod.snd = records.map fun record => RingBufferSink.printed state.slotBytes record.2 := by
  induction chunks with
  | nil => exact ⟨[], List.nodup_nil, fun _ member => absurd member List.not_mem_nil, rfl⟩
  | cons chunk later ih =>
    obtain ⟨fresh, apart⟩ := List.nodup_cons.mp apart
    obtain ⟨records, distinct, kept, same⟩ := ih (fun other member => printed other (List.mem_cons_of_mem _ member)) apart
    obtain ⟨formatted, ⟨id, returned⟩, text⟩ := printed chunk List.mem_cons_self
    refine ⟨(id, formatted) :: records, List.nodup_cons.mpr ⟨?_, distinct⟩, ?_, ?_⟩
    · intro member
      obtain ⟨record, listed, here⟩ := List.mem_map.mp member
      obtain ⟨seq, among, also⟩ := kept record listed
      rw [here, returned] at also
      cases also
      obtain ⟨other, place, equal⟩ := List.mem_map.mp among
      exact fresh (List.mem_map.mpr ⟨other, place, by rw [equal]⟩)
    · intro record member
      rcases List.mem_cons.mp member with rfl | earlier
      · exact ⟨chunk.1, List.mem_cons_self, returned⟩
      · obtain ⟨seq, among, also⟩ := kept record earlier
        exact ⟨seq, List.mem_cons_of_mem _ among, also⟩
    · rw [List.map_cons, List.map_cons, same, text]

/-- Whatever writers do meanwhile, a dump prints whole records, each once and none that
was not kept; and nobody reads or writes outside of a slot. -/
theorem dump_prints_whole_records (slots slotBytes : Nat) {acts : List Act} {state : State}
    (reached : Interleaving.run step (.new slots slotBytes) acts = some state) (few : state.writeSeq < 2 ^ 63) :
    (∀ dump, ∃ records : List (Nat × Bytes), (records.map Prod.fst).Nodup ∧
        (∀ record ∈ records, ∃ seq, state.calls record.1 = .returned record.2 seq true) ∧
        state.output dump = header :: records.map fun record => printed state.slotBytes record.2) ∧
      (∀ id formatted seq w, state.calls id = .copying formatted seq w → ∃ after, step state (.store id) = some after) ∧
      ∀ dump i currSeq gen len truncated buf w, state.dumps dump = .loading i currSeq gen len truncated buf w →
        ∃ after, step state (.copy dump) = some after := by
  obtain ⟨sound, visited⟩ := run_orderly (fun _ => new_orderly slots slotBytes) reached few
  refine ⟨?_, ?_, ?_⟩
  · intro dump
    obtain ⟨records, distinct, kept, same⟩ := told_of_kept (sound.written dump) (visited dump).nodup
    refine ⟨records, distinct, fun record member => ?_, by rw [State.output, same]⟩
    obtain ⟨seq, _, returned⟩ := kept record member
    exact ⟨seq, returned⟩
  · intro id formatted seq w copying
    have length := (sound.shaped (state.place seq)).1
    have words : 8 * w < state.copyLen formatted → w < state.slotWords := by
      intro more
      have inside : 8 * w < state.slotBytes := more.trans_le (Nat.min_le_right _ _)
      rw [State.slotWords]
      omega
    by_cases more : 8 * w < state.copyLen formatted
    · simp [step, stepSubmit, copying, more, length, words more]
    · simp [step, stepSubmit, copying, more]
  · intro dump i currSeq gen len truncated buf w loading
    have before := sound.dumps dump
    rw [loading] at before
    have length := (sound.shaped (i % state.slotsCap)).1
    by_cases more : 8 * w < len
    · have inside : w < (state.ring (i % state.slotsCap)).data.length := by
        rw [length, State.slotWords]
        have bounded := before.1
        omega
      simp [step, stepSubmit, stepDump, loading, more, List.getElem?_eq_getElem inside]
    · simp only [step, stepSubmit, stepDump, loading, more, Option.none_or, if_false]
      split
      · exact ⟨_, rfl⟩
      · exact ⟨_, rfl⟩

/-- Two calls at the same time. A dump begins before either has published, and comes to
the first slot too early. -/
def crossingCalls : List Act :=
  [.call 0 [65, 10], .call 1 [66, 10], .number 1, .number 0, .load 0, .load 1, .claim 1, .claim 0, .begin 0, .store 0,
    .store 1, .store 0, .probe 0, .publish 0, .store 1, .probe 0, .measure 0, .copy 0, .publish 1, .copy 0, .probe 0]

theorem dump_prints_whole_records_of_crossing_calls :
    ∃ state, Interleaving.run step (.new 2 64) crossingCalls = some state ∧ state.output 0 = [header, [65, 10]] ∧
      ∃ records : List (Nat × Bytes), (records.map Prod.fst).Nodup ∧
        (∀ record ∈ records, ∃ seq, state.calls record.1 = .returned record.2 seq true) ∧
        state.output 0 = header :: records.map fun record => printed state.slotBytes record.2 := by
  obtain ⟨state, reached, few, output⟩ : ∃ state, Interleaving.run step (.new 2 64) crossingCalls = some state ∧
      state.writeSeq < 2 ^ 63 ∧ state.output 0 = [header, [65, 10]] := ⟨_, rfl, by decide, rfl⟩
  exact ⟨state, reached, output, (dump_prints_whole_records 2 64 reached few).1 0⟩

end RingBufferSink

end Log

end Enigma
