import Enigma.Log.RingLosses
import Mathlib.Tactic.IntervalCases

/-! Calls that do not overlap. None is dropped, each slot holds the newest record of its
numbers, and a dump prints the last records in their order. -/

namespace Enigma

namespace Log

namespace RingBufferSink

def SubmitPhase.Running (phase : SubmitPhase) : Prop := phase ≠ .idle ∧ ¬phase.Finished

/-- No two calls run at the same time. -/
def Alone (state : State) : Prop :=
  ∀ id other, (state.calls id).Running → (state.calls other).Running → id = other

structure InOrder (state : State) : Prop where
  alone : Alone state
  undropped : ∀ id formatted seq, state.calls id ≠ .returned formatted seq false
  given : ∀ n < state.writeSeq, ∃ id, (state.calls id).seq? = some (UInt64.ofNat n)
  last : ∀ {id seq}, (state.calls id).Running → (state.calls id).seq? = some seq → seq.toNat + 1 = state.writeSeq
  current : ∀ {id formatted seq cur}, state.calls id = .claiming formatted seq cur →
    (state.ring (state.place seq)).gen = cur
  /-- A later record may have taken the place of a record, an earlier one has not. -/
  newest : ∀ {id formatted seq}, state.calls id = .returned formatted seq true →
    (state.ring (state.place seq)).gen ≠ slotFree ∧ seq.toNat ≤ (state.ring (state.place seq)).gen.toNat

variable {state after : State} {id : Nat}

theorem running_of_seq? {phase : SubmitPhase} {seq : UInt64} (numbered : phase.seq? = some seq)
    (pending : ¬phase.Finished) : phase.Running := by
  refine ⟨?_, pending⟩
  rintro rfl
  cases numbered

theorem running_of_owns? {phase : SubmitPhase} {seq : UInt64} (owns : phase.owns? = some seq) : phase.Running :=
  running_of_seq? (SubmitPhase.seq?_of_owns? owns) (not_finished_of_owns owns)

section Step

variable (steps : StepsOf id state after) (inOrder : InOrder state)

include steps inOrder

/-- A slot changes under a call that runs, and no other call runs then. -/
theorem StepsOf.gen_unchanged {other : Nat} (different : other ≠ id) (running : (state.calls other).Running) (index : Nat) :
    (after.ring index).gen = (state.ring index).gen := by
  by_contra changed
  obtain ⟨number, numbered, _⟩ := steps.gens index changed
  exact different (inOrder.alone other id running (running_of_seq? numbered steps.pending))

theorem StepsOf.undropped (sound : Sound state) (unexhausted : Unexhausted state) (other : Nat) (formatted : Bytes)
    (seq : UInt64) : after.calls other ≠ .returned formatted seq false := by
  intro dropped
  by_cases own : other = id
  · subst own
    obtain ⟨numbered, marked | ⟨cur, was, different⟩⟩ := steps.drops dropped
    · obtain ⟨owner, number, owns, _⟩ := sound.owner unexhausted marked
      have same := inOrder.alone owner other (running_of_owns? owns) (running_of_seq? numbered steps.pending)
      have claimed := steps.claimed (same ▸ claimed?_of_owns? owns)
      rw [dropped] at claimed
      cases claimed
    · exact different (inOrder.current was)
  · rw [steps.others other own] at dropped
    exact inOrder.undropped other formatted seq dropped

theorem StepsOf.given (n : Nat) (few : n < after.writeSeq) : ∃ id, (after.calls id).seq? = some (UInt64.ofNat n) := by
  have earlier : n < state.writeSeq → ∃ id, (after.calls id).seq? = some (UInt64.ofNat n) := by
    intro less
    obtain ⟨other, numbered⟩ := inOrder.given n less
    refine ⟨other, ?_⟩
    by_cases own : other = id
    · subst own
      rcases steps.numbers with ⟨same, _⟩ | ⟨unnumbered, _⟩
      · rw [same, numbered]
      · rw [unnumbered] at numbered
        cases numbered
    · rw [steps.others other own, numbered]
  rcases steps.numbers with ⟨_, same⟩ | ⟨_, _, numbered, more⟩
  · exact earlier (same ▸ few)
  · rw [more, Nat.lt_succ_iff_lt_or_eq] at few
    rcases few with less | rfl
    · exact earlier less
    · exact ⟨id, numbered⟩

theorem StepsOf.last (unexhausted : Unexhausted state) (alone : Alone after) {other : Nat} {seq : UInt64}
    (running : (after.calls other).Running) (numbered : (after.calls other).seq? = some seq) :
    seq.toNat + 1 = after.writeSeq := by
  rcases steps.numbers with ⟨same, count⟩ | ⟨_, unfinished, fresh, count⟩
  · rw [count]
    by_cases own : other = id
    · subst own
      rw [same] at numbered
      exact inOrder.last (running_of_seq? numbered steps.pending) numbered
    · rw [steps.others other own] at running numbered
      exact inOrder.last running numbered
  · have here := alone other id running (running_of_seq? fresh unfinished)
    rw [here, fresh, Option.some.injEq] at numbered
    have few : state.writeSeq < 2 ^ 63 := unexhausted
    rw [← numbered, count, UInt64.toNat_ofNat_of_lt' (few.trans (by decide))]

theorem StepsOf.current {other : Nat} {formatted : Bytes} {seq cur : UInt64}
    (claiming : after.calls other = .claiming formatted seq cur) : (after.ring (after.place seq)).gen = cur := by
  rw [steps.place]
  by_cases own : other = id
  · subst own
    exact steps.loads claiming
  · rw [steps.others other own] at claiming
    have running : (state.calls other).Running := by
      rw [claiming]
      exact running_of_seq? rfl (by simp [SubmitPhase.Finished])
    rw [steps.gen_unchanged inOrder own running, inOrder.current claiming]

theorem StepsOf.newest (sound : Sound state) (soundAfter : Sound after) (unexhausted : Unexhausted state)
    (lasting : Unexhausted after) {other : Nat} {formatted : Bytes} {seq : UInt64}
    (returned : after.calls other = .returned formatted seq true) :
    (after.ring (after.place seq)).gen ≠ slotFree ∧ seq.toNat ≤ (after.ring (after.place seq)).gen.toNat := by
  have free : slotFree.toNat = 2 ^ 63 - 1 := by decide
  have unlike : ∀ {gen : UInt64}, gen.toNat ≠ 2 ^ 63 - 1 → gen ≠ slotFree := by
    rintro gen large rfl
    exact large free
  have small := soundAfter.numbering.kept_small lasting ⟨other, returned⟩
  rw [steps.place]
  by_cases own : other = id
  · subst own
    rw [steps.keeps returned]
    exact ⟨unlike (by omega), Nat.le_refl _⟩
  · rw [steps.others other own] at returned
    by_cases changed : (after.ring (state.place seq)).gen = (state.ring (state.place seq)).gen
    · rw [changed]
      exact inOrder.newest returned
    · obtain ⟨number, numbered, _, _, marked | plain⟩ := steps.gens _ changed
      · have bounded := sound.numbering.small unexhausted numbered
        rw [marked]
        have high := flag_toNat (show number.toNat < 2 ^ 63 by omega)
        exact ⟨unlike (by omega), by omega⟩
      · have bounded := sound.numbering.small unexhausted numbered
        have latest := inOrder.last (running_of_seq? numbered steps.pending) numbered
        have below := sound.numbering.below other seq (by rw [returned]; rfl)
        rw [plain]
        exact ⟨unlike (by omega), by omega⟩

end Step

theorem Moves.inOrder (moves : Moves state after) (sound : Sound state) (soundAfter : Sound after)
    (unexhausted : Unexhausted state) (lasting : Unexhausted after) (inOrder : InOrder state) (alone : Alone after) :
    InOrder after := by
  cases moves with
  | submit submits =>
    obtain ⟨id, steps⟩ := submits.stepsOf
    exact ⟨alone, steps.undropped inOrder sound unexhausted, steps.given inOrder, steps.last inOrder unexhausted alone,
      steps.current inOrder, steps.newest inOrder sound soundAfter unexhausted lasting⟩
  | read reads =>
    cases reads <;>
      exact ⟨alone, inOrder.undropped, inOrder.given, inOrder.last, inOrder.current, inOrder.newest⟩

theorem new_inOrder (slots slotBytes : Nat) : InOrder (.new slots slotBytes) where
  alone := fun _ _ running => absurd rfl running.1
  undropped := by
    intro id formatted seq dropped
    cases dropped
  given := fun n few => absurd few (Nat.not_lt_zero n)
  last := fun running => absurd rfl running.1
  current := by
    intro id formatted seq cur claiming
    cases claiming
  newest := by
    intro id formatted seq returned
    cases returned

theorem run_inOrder {acts : List Act} (orderly : Orderly state) (inOrder : InOrder state)
    (ran : Interleaving.run step state acts = some after)
    (apart : ∀ earlier, earlier <+: acts → ∀ reached, Interleaving.run step state earlier = some reached → Alone reached)
    (unexhausted : Unexhausted after) : Orderly after ∧ InOrder after := by
  refine Interleaving.run_keeps_through (fun state => Unexhausted state → Orderly state ∧ InOrder state) Alone ?_
    (fun _ => ⟨orderly, inOrder⟩) ran apart unexhausted
  intro state after act kept alone moved unexhausted
  have moves := step_moves moved
  have lasting := moves.unexhausted unexhausted
  obtain ⟨orderly, inOrder⟩ := kept lasting
  have sound := moves.sound orderly.sound unexhausted
  exact ⟨⟨sound, moves.visited orderly.sound orderly.visited⟩,
    moves.inOrder orderly.sound sound lasting unexhausted inOrder alone⟩

section Quiet

variable (inOrder : InOrder state) (quiet : ∀ id, ¬(state.calls id).Running)

include inOrder quiet

theorem InOrder.kept {n : Nat} (few : n < state.writeSeq) : ∃ formatted, Kept state (UInt64.ofNat n) formatted := by
  obtain ⟨id, numbered⟩ := inOrder.given n few
  have finished : (state.calls id).Finished := by
    by_contra pending
    exact quiet id (running_of_seq? numbered pending)
  obtain ⟨formatted, seq, kept, returned⟩ := finished
  rw [returned] at numbered
  cases numbered
  cases kept with
  | false => exact absurd returned (inOrder.undropped id formatted _)
  | true => exact ⟨formatted, id, returned⟩

/-- A slot holds the newest record of its numbers. -/
theorem InOrder.gen_eq (sound : Sound state) (unexhausted : Unexhausted state) {n : Nat} (few : n < state.writeSeq)
    (recent : state.writeSeq ≤ n + state.slotsCap) : (state.ring (n % state.slotsCap)).gen = UInt64.ofNat n := by
  have count : state.writeSeq < 2 ^ 63 := unexhausted
  have number : (UInt64.ofNat n).toNat = n := UInt64.toNat_ofNat_of_lt' ((few.trans count).trans (by decide))
  obtain ⟨formatted, id, returned⟩ := inOrder.kept quiet few
  obtain ⟨used, later⟩ := inOrder.newest returned
  rw [State.place, number] at used later
  rcases sound.slots (n % state.slotsCap) with free | ⟨owner, seq, owns, _⟩ | ⟨text, ⟨holder, held⟩, place, _⟩
  · exact absurd free used
  · exact absurd (running_of_owns? owns) (quiet owner)
  · have below := sound.numbering.below holder _ (by rw [held]; rfl)
    by_contra different
    have apart := turn_apart place (fun same => different (UInt64.toNat_inj.mp (same.trans number.symm)))
    omega

/-- The records in the order of their numbers. -/
theorem InOrder.texts (sound : Sound state) :
    ∃ texts : List Bytes, texts.length = state.writeSeq ∧
      ∀ n formatted, texts[n]? = some formatted ↔ Kept state (UInt64.ofNat n) formatted ∧ n < state.writeSeq := by
  have texts : ∀ n ≤ state.writeSeq, ∃ texts : List Bytes, texts.length = n ∧
      ∀ m formatted, texts[m]? = some formatted ↔ Kept state (UInt64.ofNat m) formatted ∧ m < n := by
    intro n few
    induction n with
    | zero => exact ⟨[], rfl, fun m formatted => by simp⟩
    | succ n ih =>
      obtain ⟨texts, length, listed⟩ := ih (Nat.le_of_succ_le few)
      obtain ⟨last, kept⟩ := inOrder.kept quiet few
      refine ⟨texts ++ [last], by rw [List.length_append, length]; rfl, fun m formatted => ?_⟩
      rcases Nat.lt_trichotomy m n with less | rfl | more
      · rw [List.getElem?_append_left (by omega), listed]
        simp only [less, Nat.lt_succ_of_lt less]
      · rw [List.getElem?_append_right (by omega), length, Nat.sub_self, List.getElem?_cons_zero, Option.some.injEq]
        constructor
        · rintro rfl
          exact ⟨kept, Nat.lt_succ_self m⟩
        · rintro ⟨also, _⟩
          exact sound.numbering.kept_unique kept also
      · rw [List.getElem?_eq_none (by rw [List.length_append, length]; exact more)]
        constructor
        · intro none
          cases none
        · rintro ⟨_, less⟩
          omega
  exact texts state.writeSeq (Nat.le_refl _)

end Quiet

theorem printed_eq_nil_iff (slotBytes : Nat) (formatted : Bytes) :
    printed slotBytes formatted = [] ↔ min formatted.length slotBytes % 2 ^ 32 = 0 := by
  have bounded : min formatted.length slotBytes % 2 ^ 32 ≤ formatted.length := (Nat.mod_le _ _).trans (Nat.min_le_left _ _)
  simp only [printed]
  split
  · rename_i long
    simp only [List.append_eq_nil_iff, List.cons_ne_nil, and_false, false_iff]
    omega
  · rw [List.take_eq_nil_iff]
    constructor
    · rintro (none | rfl)
      · exact none
      · simp
    · exact .inl

/-- What is printed of the records from one number up to another. -/
def printedFrom (texts : List Bytes) (slotBytes start stop : Nat) : List Bytes :=
  (((texts.take stop).drop start).map (printed slotBytes)).filter fun chunk => chunk ≠ []

theorem printedFrom_self (texts : List Bytes) (slotBytes start : Nat) : printedFrom texts slotBytes start start = [] := by
  rw [printedFrom, List.drop_eq_nil_of_le (List.length_take_le _ _)]
  rfl

theorem printedFrom_succ {texts : List Bytes} {slotBytes start stop : Nat} {formatted : Bytes} (started : start ≤ stop)
    (next : texts[stop]? = some formatted) : printedFrom texts slotBytes start (stop + 1) =
      printedFrom texts slotBytes start stop ++ [printed slotBytes formatted].filter fun chunk => chunk ≠ [] := by
  have inside := (List.getElem?_eq_some_iff.mp next).1
  rw [printedFrom, printedFrom, List.take_add_one, next, List.drop_append_of_le_length, List.map_append,
    List.filter_append]
  · rfl
  · rw [List.length_take]
    omega

/-- All records are kept, and the last of them are in their slots. -/
structure Recorded (texts : List Bytes) (state : State) : Prop where
  sound : Sound state
  unexhausted : Unexhausted state
  length : texts.length = state.writeSeq
  kept : ∀ {n formatted}, texts[n]? = some formatted → Kept state (UInt64.ofNat n) formatted
  gens : ∀ {n}, n < state.writeSeq → state.writeSeq ≤ n + state.slotsCap →
    (state.ring (n % state.slotsCap)).gen = UInt64.ofNat n

/-- A dump has come to a number and has printed all records before it. -/
structure Reached (texts : List Bytes) (state : State) (dump i currSeq : Nat) : Prop where
  all : currSeq = state.writeSeq
  started : state.writeSeq - state.slotsCap ≤ i
  inside : i ≤ state.writeSeq
  output : (state.written dump).map Prod.snd =
    printedFrom texts state.slotBytes (state.writeSeq - state.slotsCap) i

def Progress (texts : List Bytes) (state : State) (dump : Nat) : DumpPhase → Prop
  | .idle => state.written dump = []
  | .scanning i currSeq => Reached texts state dump i currSeq
  | .found i currSeq gen => Reached texts state dump i currSeq ∧ i < currSeq ∧ gen = UInt64.ofNat i
  | .loading i currSeq gen len _ _ _ =>
    Reached texts state dump i currSeq ∧ i < currSeq ∧ gen = UInt64.ofNat i ∧ 0 < len
  | .finished currSeq => Reached texts state dump currSeq currSeq

variable {texts : List Bytes}

theorem Recorded.gen (recorded : Recorded texts state) {dump i currSeq : Nat} (reached : Reached texts state dump i currSeq)
    (more : i < currSeq) : (state.ring (i % state.slotsCap)).gen = UInt64.ofNat i := by
  have started := reached.started
  exact recorded.gens (reached.all ▸ more) (by omega)

theorem Recorded.text (recorded : Recorded texts state) {dump i currSeq : Nat}
    (reached : Reached texts state dump i currSeq) (more : i < currSeq) :
    ∃ formatted, texts[i]? = some formatted ∧ Kept state (UInt64.ofNat i) formatted := by
  have inside : i < texts.length := by
    rw [recorded.length, ← reached.all]
    exact more
  exact ⟨texts[i], List.getElem?_eq_getElem inside, recorded.kept (List.getElem?_eq_getElem inside)⟩

/-- A record of which nothing is printed. -/
theorem Reached.skip {dump i currSeq : Nat} (reached : Reached texts state dump i currSeq) (more : i < currSeq)
    {formatted : Bytes} (next : texts[i]? = some formatted) (nothing : printed state.slotBytes formatted = []) :
    Reached texts state dump (i + 1) currSeq := by
  have all := reached.all
  have started := reached.started
  refine ⟨all, by omega, by omega, ?_⟩
  rw [printedFrom_succ started next, nothing, reached.output]
  exact (List.append_nil _).symm

theorem Looks.progress {dump : Nat} {phase next : DumpPhase} (looks : Looks state phase next)
    (recorded : Recorded texts state) (progress : Progress texts state dump phase) : Progress texts state dump next := by
  have count : state.writeSeq < 2 ^ 63 := recorded.unexhausted
  cases looks with
  | begin =>
    have whole : state.writeSeq % 2 ^ 64 = state.writeSeq := Nat.mod_eq_of_lt (count.trans (by decide))
    have start : (if state.slotsCap < state.writeSeq % 2 ^ 64 then state.writeSeq % 2 ^ 64 - state.slotsCap else 0) =
        state.writeSeq - state.slotsCap := by
      rw [whole]
      split <;> omega
    have nothing : state.written dump = [] := progress
    rw [start]
    refine ⟨whole, Nat.le_refl _, Nat.sub_le _ _, ?_⟩
    rw [nothing, printedFrom_self]
    rfl
  | pass i currSeq more unreadable =>
    obtain ⟨formatted, next, kept⟩ := recorded.text progress more
    rw [recorded.gen progress more] at unreadable
    rcases unreadable with free | marked
    · have small := recorded.sound.numbering.kept_small recorded.unexhausted kept
      rw [free] at small
      exact absurd small (by decide)
    · exact absurd (recorded.sound.numbering.kept_clear recorded.unexhausted kept) marked
  | find i currSeq more used clear => exact ⟨progress, more, recorded.gen progress more⟩
  | finish i currSeq done =>
    have reached : Reached texts state dump i currSeq := progress
    have inside := reached.inside
    have all := reached.all
    have same : i = currSeq := by omega
    exact same ▸ reached
  | hollow i currSeq gen empty =>
    obtain ⟨reached, more, rfl⟩ := progress
    obtain ⟨formatted, next, kept⟩ := recorded.text reached more
    have published := recorded.sound.published recorded.unexhausted kept (recorded.gen reached more)
    rw [published.len_toNat] at empty
    exact reached.skip more next ((printed_eq_nil_iff _ _).mpr empty)
  | measure i currSeq gen filled =>
    obtain ⟨reached, more, here⟩ := progress
    refine ⟨reached, more, here, ?_⟩
    have room : 0 < dumpCopyMax := by decide
    exact Nat.lt_min.mpr ⟨Nat.pos_of_ne_zero filled, room⟩
  | copy i currSeq gen len truncated buf w word more read => exact progress
  | discard i currSeq gen len truncated buf w done changed =>
    obtain ⟨reached, more, here, _⟩ := progress
    exact absurd ((recorded.gen reached more).trans here.symm) changed

theorem Progress.congr {dump : Nat} {phase : DumpPhase} (progress : Progress texts state dump phase)
    (slotsCap : after.slotsCap = state.slotsCap) (slotBytes : after.slotBytes = state.slotBytes)
    (count : after.writeSeq = state.writeSeq) (written : after.written dump = state.written dump) :
    Progress texts after dump phase := by
  have reached : ∀ {i currSeq}, Reached texts state dump i currSeq → Reached texts after dump i currSeq := by
    rintro i currSeq ⟨all, started, inside, output⟩
    refine ⟨by rw [count, all], by rw [count, slotsCap]; exact started, by rw [count]; exact inside, ?_⟩
    rw [written, slotBytes, count, slotsCap, output]
  cases phase with
  | idle => exact written.trans progress
  | scanning i currSeq => exact reached progress
  | finished currSeq => exact reached progress
  | _ => exact ⟨reached progress.1, progress.2⟩

theorem Reads.progress (reads : Reads state after) (recorded : Recorded texts state) {dump : Nat}
    (progress : Progress texts state dump (state.dumps dump)) : Progress texts after dump (after.dumps dump) := by
  cases reads with
  | look other phase looks =>
    change Progress texts _ dump (Function.update state.dumps other phase dump)
    rw [Function.update_apply]
    split
    · rename_i here
      subst here
      exact (looks.progress recorded progress).congr rfl rfl rfl rfl
    · exact progress.congr rfl rfl rfl rfl
  | write other i currSeq gen len truncated buf w was done unchanged =>
    change Progress texts _ dump (Function.update state.dumps other (.scanning (i + 1) currSeq) dump)
    by_cases here : dump = other
    · subst here
      rw [Function.update_self]
      have copied := recorded.sound.dumps dump
      rw [was] at progress copied
      obtain ⟨reached, more, rfl, some⟩ := progress
      obtain ⟨_, formatted, kept, _, loaded⟩ := copied
      obtain ⟨text, next, also⟩ := recorded.text reached more
      have same := recorded.sound.numbering.kept_unique also kept
      subst same
      have all := reached.all
      have started := reached.started
      have filled : printed state.slotBytes text ≠ [] := by
        intro nothing
        have empty : state.copyLen text % 2 ^ 32 = 0 := (printed_eq_nil_iff _ _).mp nothing
        have size := (loaded unchanged).size
        rw [empty, Nat.zero_min] at size
        omega
      refine ⟨all, Nat.le_succ_of_le started, (all ▸ more : i < state.writeSeq), ?_⟩
      change (Function.update state.written dump (state.written dump ++ [_]) dump).map Prod.snd =
        printedFrom texts state.slotBytes (state.writeSeq - state.slotsCap) (i + 1)
      rw [Function.update_self, printedFrom_succ started next, List.map_append, reached.output,
        (loaded unchanged).printed done]
      simp [filled]
    · rw [Function.update_of_ne here]
      exact progress.congr rfl rfl rfl (Function.update_of_ne here ..)

theorem Reads.recorded (reads : Reads state after) (recorded : Recorded texts state) : Recorded texts after := by
  have sound := reads.sound recorded.sound recorded.unexhausted
  have lasting := reads.unexhausted.mpr recorded.unexhausted
  cases reads <;> exact ⟨sound, lasting, recorded.length, recorded.kept, recorded.gens⟩

/-- The steps that dumps take. -/
def Act.ofDump : Act → Bool
  | .begin _ | .probe _ | .measure _ | .copy _ => true
  | _ => false

theorem run_dumps {acts : List Act} (dumping : ∀ act ∈ acts, act.ofDump = true)
    (ran : Interleaving.run step state acts = some after) : Interleaving.run stepDump state acts = some after := by
  induction acts generalizing state with
  | nil => exact ran
  | cons act later ih =>
    obtain ⟨next, moved, rest⟩ := Option.bind_eq_some_iff.mp ran
    have first := dumping act List.mem_cons_self
    have dumped : stepDump state act = some next := by
      cases act <;> first | exact moved | cases first
    rw [Interleaving.run, dumped]
    exact ih (fun other member => dumping other (List.mem_cons_of_mem _ member)) rest

/-- When no two calls have overlapped and none is running, a dump prints the last records,
as many as the ring has slots, in the order of their calls, and no call has lost its record. -/
theorem dump_prints_last_records (slots slotBytes : Nat) {acts later : List Act} {before state : State} {dump currSeq : Nat}
    (reached : Interleaving.run step (.new slots slotBytes) acts = some before)
    (apart : ∀ earlier, earlier <+: acts → ∀ middle,
      Interleaving.run step (.new slots slotBytes) earlier = some middle → Alone middle)
    (quiet : ∀ id, ¬(before.calls id).Running) (few : before.writeSeq < 2 ^ 63) (idle : before.dumps dump = .idle)
    (ran : Interleaving.run step before later = some state) (dumping : ∀ act ∈ later, act.ofDump = true)
    (finished : state.dumps dump = .finished currSeq) :
    ∃ texts : List Bytes, texts.length = before.writeSeq ∧
      (∀ id formatted seq kept, before.calls id = .returned formatted seq kept →
        kept = true ∧ texts[seq.toNat]? = some formatted) ∧
      state.output dump = header ::
        ((texts.drop (texts.length - before.slotsCap)).map (printed before.slotBytes)).filter fun chunk => chunk ≠ [] := by
  obtain ⟨⟨sound, visited⟩, inOrder⟩ :=
    run_inOrder (new_orderly slots slotBytes) (new_inOrder slots slotBytes) reached apart few
  obtain ⟨texts, length, listed⟩ := inOrder.texts quiet sound
  have recorded : Recorded texts before :=
    ⟨sound, few, length, fun next => ((listed _ _).mp next).1, inOrder.gen_eq quiet sound few⟩
  have nothing := visited dump
  rw [idle] at nothing
  have invariant : (Recorded texts state ∧ Progress texts state dump (state.dumps dump)) ∧
      (state.slotsCap = before.slotsCap ∧ state.slotBytes = before.slotBytes ∧ state.writeSeq = before.writeSeq) := by
    refine Interleaving.run_keeps (fun state => (Recorded texts state ∧ Progress texts state dump (state.dumps dump)) ∧
      (state.slotsCap = before.slotsCap ∧ state.slotBytes = before.slotBytes ∧ state.writeSeq = before.writeSeq)) ?_
      ⟨⟨recorded, by rw [idle]; exact nothing⟩, rfl, rfl, rfl⟩ (run_dumps dumping ran)
    rintro state after act ⟨⟨recorded, progress⟩, same⟩ moved
    have reads := stepDump_reads moved
    refine ⟨⟨reads.recorded recorded, reads.progress recorded progress⟩, ?_⟩
    cases reads <;> exact same
  obtain ⟨⟨recorded, progress⟩, slotsCap, bytes, count⟩ := invariant
  rw [finished] at progress
  obtain ⟨all, _, _, output⟩ := progress
  refine ⟨texts, length, ?_, ?_⟩
  · intro id formatted seq kept returned
    cases kept with
    | false => exact absurd returned (inOrder.undropped id formatted seq)
    | true =>
      have below := sound.numbering.below id seq (by rw [returned]; rfl)
      exact ⟨rfl, (listed _ _).mpr ⟨⟨id, by rw [returned, UInt64.ofNat_toNat]⟩, below⟩⟩
  · have whole : texts.take currSeq = texts := List.take_of_length_le (by omega)
    rw [State.output, output, printedFrom, whole, length, slotsCap, bytes, count]

theorem alone_of_rest {actor : Nat} (rest : ∀ id ≠ actor, ¬(state.calls id).Running) : Alone state := by
  have only : ∀ id, (state.calls id).Running → id = actor := by
    intro id running
    by_contra different
    exact rest id different running
  exact fun id other running also => (only id running).trans (only other also).symm

/-- Two calls, one after the other. -/
def callsInTurn : List Act :=
  [.call 0 [65, 10], .number 0, .load 0, .claim 0, .store 0, .store 0, .publish 0,
    .call 1 [66, 10], .number 1, .load 1, .claim 1, .store 1, .store 1, .publish 1]

theorem callsInTurn_steps : ∀ k ≤ 14, ∃ middle, Interleaving.run step (.new 1 64) (callsInTurn.take k) = some middle ∧
    (∀ id, id ≠ 0 → id ≠ 1 → middle.calls id = .idle) ∧
      (middle.calls 1 = .idle ∨ middle.calls 0 = .returned [65, 10] 0 true) := by
  intro k small
  interval_cases k
  all_goals
    refine ⟨_, rfl, fun id first second => ?_, ?_⟩
    · simp [first, second, State.new]
    · first | exact .inl rfl | exact .inr rfl

theorem callsInTurn_alone {earlier : List Act} (initial : earlier <+: callsInTurn) {middle : State}
    (went : Interleaving.run step (.new 1 64) earlier = some middle) : Alone middle := by
  obtain ⟨also, alike, others, turns⟩ := callsInTurn_steps earlier.length initial.length_le
  rw [← List.prefix_iff_eq_take.mp initial, went] at alike
  cases alike
  rcases turns with waiting | done
  · refine @alone_of_rest _ 0 fun id different running => running.1 ?_
    by_cases second : id = 1
    · rw [second, waiting]
    · exact others id different second
  · refine @alone_of_rest _ 1 fun id different running => ?_
    by_cases first : id = 0
    · subst first
      exact running.2 ⟨_, _, _, done⟩
    · exact running.1 (others id first different)

/-- The ring has one slot, so the dump prints the second record only. -/
theorem dump_prints_last_records_second_call :
    ∃ before state, Interleaving.run step (.new 1 64) callsInTurn = some before ∧
      Interleaving.run step before [.begin 0, .probe 0, .measure 0, .copy 0, .copy 0, .probe 0] = some state ∧
      state.output 0 = [header, [66, 10]] ∧
      ∃ texts : List Bytes, texts.length = before.writeSeq ∧ state.output 0 = header ::
        ((texts.drop (texts.length - before.slotsCap)).map (printed before.slotBytes)).filter fun chunk => chunk ≠ [] := by
  obtain ⟨before, state, reached, first, second, few, idle, ran, finished, output⟩ : ∃ before state,
      Interleaving.run step (.new 1 64) callsInTurn = some before ∧ before.calls 0 = .returned [65, 10] 0 true ∧
      before.calls 1 = .returned [66, 10] 1 true ∧ before.writeSeq < 2 ^ 63 ∧ before.dumps 0 = .idle ∧
      Interleaving.run step before [.begin 0, .probe 0, .measure 0, .copy 0, .copy 0, .probe 0] = some state ∧
      state.dumps 0 = .finished 2 ∧ state.output 0 = [header, [66, 10]] :=
    ⟨_, _, rfl, rfl, rfl, by decide, rfl, rfl, rfl, rfl⟩
  have quiet : ∀ id, ¬(before.calls id).Running := by
    intro id running
    obtain ⟨last, alike, others, -⟩ := callsInTurn_steps 14 le_rfl
    cases reached.symm.trans alike
    by_cases here : id = 0
    · subst here
      exact running.2 ⟨_, _, _, first⟩
    · by_cases there : id = 1
      · subst there
        exact running.2 ⟨_, _, _, second⟩
      · exact running.1 (others id here there)
  obtain ⟨texts, length, _, printed⟩ := dump_prints_last_records 1 64 reached
    (fun earlier initial middle went => callsInTurn_alone initial went) quiet few idle ran (by decide) finished
  exact ⟨before, state, reached, ran, output, texts, length, printed⟩

end RingBufferSink

end Log

end Enigma
