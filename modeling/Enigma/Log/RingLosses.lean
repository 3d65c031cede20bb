import Enigma.Log.CrashDump

/-! What the ring may lose. A call that drops its record was overtaken, while it ran, by a
call that is a whole turn of the ring away; calls that do not overlap lose nothing. -/

namespace Enigma

namespace Log

namespace RingBufferSink

/-- The number under which a call has claimed a slot. -/
def SubmitPhase.claimed? : SubmitPhase → Option UInt64
  | .copying _ seq _ | .publishing _ seq | .returned _ seq true => some seq
  | _ => none

/-- The steps of one call: a slot whose generation changes is one that it has claimed. -/
structure StepsOf (id : Nat) (state after : State) : Prop where
  slotsCap : after.slotsCap = state.slotsCap
  pending : ¬(state.calls id).Finished
  others : ∀ other ≠ id, after.calls other = state.calls other
  numbers : (after.calls id).seq? = (state.calls id).seq? ∧ after.writeSeq = state.writeSeq ∨
    (state.calls id).seq? = none ∧ ¬(after.calls id).Finished ∧
      (after.calls id).seq? = some (UInt64.ofNat state.writeSeq) ∧ after.writeSeq = state.writeSeq + 1
  claimed : ∀ {number}, (state.calls id).claimed? = some number → (after.calls id).claimed? = some number
  gens : ∀ index, (after.ring index).gen ≠ (state.ring index).gen → ∃ number, (state.calls id).seq? = some number ∧
    (after.calls id).claimed? = some number ∧ state.place number = index ∧
      ((after.ring index).gen = number ||| writingFlag ∨ (after.ring index).gen = number)
  loads : ∀ {formatted seq cur}, after.calls id = .claiming formatted seq cur → (after.ring (state.place seq)).gen = cur
  drops : ∀ {formatted seq}, after.calls id = .returned formatted seq false → (state.calls id).seq? = some seq ∧
    ((state.ring (state.place seq)).gen &&& writingFlag ≠ 0 ∨
      ∃ cur, state.calls id = .claiming formatted seq cur ∧ (state.ring (state.place seq)).gen ≠ cur)
  keeps : ∀ {formatted seq}, after.calls id = .returned formatted seq true → (after.ring (state.place seq)).gen = seq

variable {before state after : State} {id : Nat}

section Enter

variable {phase was : SubmitPhase} (now : state.calls id = was) (pending : ¬was.Finished)

include now pending

theorem stepsOf_enter {count : Nat} (unclaimed : was.claimed? = none) (idle : phase.claimed? = none)
    (numbers : phase.seq? = was.seq? ∧ count = state.writeSeq ∨
      was.seq? = none ∧ ¬phase.Finished ∧ phase.seq? = some (UInt64.ofNat state.writeSeq) ∧ count = state.writeSeq + 1)
    (loads : ∀ {formatted seq cur}, phase = .claiming formatted seq cur → (state.ring (state.place seq)).gen = cur)
    (drops : ∀ {formatted seq}, phase = .returned formatted seq false → was.seq? = some seq ∧
      ((state.ring (state.place seq)).gen &&& writingFlag ≠ 0 ∨
        ∃ cur, was = .claiming formatted seq cur ∧ (state.ring (state.place seq)).gen ≠ cur)) :
    StepsOf id state { state.enter id phase with writeSeq := count } := by
  have here : { state.enter id phase with writeSeq := count }.calls id = phase := Function.update_self ..
  refine ⟨rfl, now ▸ pending, fun other different => Function.update_of_ne different .., ?_, ?_,
    fun _ changed => absurd rfl changed, ?_, ?_, ?_⟩
  · rw [here, now]
    exact numbers
  · intro number claimed
    rw [now, unclaimed] at claimed
    cases claimed
  · intro formatted seq cur
    rw [here]
    exact loads
  · intro formatted seq
    rw [here, now]
    exact drops
  · intro formatted seq
    rw [here]
    rintro rfl
    cases idle

theorem stepsOf_setSlot {seq : UInt64} {slot : Slot} (claims : phase.claimed? = some seq) (same : phase.seq? = was.seq?)
    (numbered : was.seq? = some seq) (claimed : ∀ {number}, was.claimed? = some number → number = seq)
    (gen : slot.gen = (state.ring (state.place seq)).gen ∨ slot.gen = seq ||| writingFlag ∨ slot.gen = seq)
    (keeps : ∀ {formatted}, phase = .returned formatted seq true → slot.gen = seq) :
    StepsOf id state ((state.setSlot (state.place seq) slot).enter id phase) := by
  have here : ((state.setSlot (state.place seq) slot).enter id phase).calls id = phase := Function.update_self ..
  refine ⟨rfl, now ▸ pending, fun other different => Function.update_of_ne different .., ?_, ?_, ?_, ?_, ?_, ?_⟩
  · rw [here, now]
    exact .inl ⟨same, rfl⟩
  · intro number
    rw [now, here, claims, Option.some.injEq]
    exact fun given => (claimed given).symm
  · intro index changed
    rw [State.enter_ring, State.setSlot_ring] at changed ⊢
    have place : state.place seq = index := by
      by_contra elsewhere
      exact changed (by rw [Function.update_of_ne (Ne.symm elsewhere)])
    subst place
    rw [Function.update_self] at changed ⊢
    rw [now, here]
    exact ⟨seq, numbered, claims, rfl, gen.resolve_left changed⟩
  · intro formatted number cur
    rw [here]
    rintro rfl
    cases claims
  · intro formatted number
    rw [here]
    rintro rfl
    cases claims
  · intro formatted number
    rw [here, State.enter_ring, State.setSlot_ring]
    rintro rfl
    cases claims
    rw [Function.update_self]
    exact keeps rfl

end Enter

theorem Submits.stepsOf (submits : Submits state after) : ∃ id, StepsOf id state after := by
  cases submits with
  | call id formatted was =>
    exact ⟨id, stepsOf_enter was (by simp [SubmitPhase.Finished]) rfl rfl (.inl ⟨rfl, rfl⟩) (by simp) (by simp)⟩
  | number id formatted was =>
    refine ⟨id, stepsOf_enter was (by simp [SubmitPhase.Finished]) rfl rfl (.inr ⟨rfl, ?_, rfl, rfl⟩) (by simp) (by simp)⟩
    simp [SubmitPhase.Finished]
  | taken id formatted seq was marked =>
    refine ⟨id, stepsOf_enter was (by simp [SubmitPhase.Finished]) rfl rfl (.inl ⟨rfl, rfl⟩) (by simp) ?_⟩
    rintro text number ⟨⟩
    exact ⟨rfl, .inl marked⟩
  | load id formatted seq was clear =>
    refine ⟨id, stepsOf_enter was (by simp [SubmitPhase.Finished]) rfl rfl (.inl ⟨rfl, rfl⟩) ?_ (by simp)⟩
    rintro text number cur ⟨⟩
    rfl
  | lose id formatted seq cur was other =>
    refine ⟨id, stepsOf_enter was (by simp [SubmitPhase.Finished]) rfl rfl (.inl ⟨rfl, rfl⟩) (by simp) ?_⟩
    rintro text number ⟨⟩
    exact ⟨rfl, .inr ⟨cur, rfl, other⟩⟩
  | claim id formatted seq cur was same =>
    exact ⟨id, stepsOf_setSlot was (by simp [SubmitPhase.Finished]) rfl rfl rfl (by simp [SubmitPhase.claimed?])
      (.inr (.inl rfl)) (by simp)⟩
  | word id formatted seq w was more inside =>
    exact ⟨id, stepsOf_setSlot was (by simp [SubmitPhase.Finished]) rfl rfl rfl (by simp [SubmitPhase.claimed?])
      (.inl rfl) (by simp)⟩
  | size id formatted seq w was done =>
    exact ⟨id, stepsOf_setSlot was (by simp [SubmitPhase.Finished]) rfl rfl rfl (by simp [SubmitPhase.claimed?])
      (.inl rfl) (by simp)⟩
  | publish id formatted seq was =>
    exact ⟨id, stepsOf_setSlot was (by simp [SubmitPhase.Finished]) rfl rfl rfl (by simp [SubmitPhase.claimed?])
      (.inr (.inr rfl)) (fun _ => rfl)⟩

/-- Another call that had not returned before has claimed the slot of a number. -/
def Rival (before state : State) (id : Nat) (seq : UInt64) : Prop :=
  ∃ other number, other ≠ id ∧ ¬(before.calls other).Finished ∧ (state.calls other).claimed? = some number ∧
    state.place number = state.place seq

theorem StepsOf.place (steps : StepsOf id state after) (seq : UInt64) : after.place seq = state.place seq := by
  rw [State.place, State.place, steps.slotsCap]

theorem StepsOf.claimed_of {actor : Nat} (steps : StepsOf actor state after) {other : Nat} {number : UInt64}
    (claimed : (state.calls other).claimed? = some number) : (after.calls other).claimed? = some number := by
  by_cases own : other = actor
  · subst own
    exact steps.claimed claimed
  · rwa [steps.others other own]

theorem Rival.later {actor : Nat} {seq : UInt64} (rival : Rival before state id seq) (steps : StepsOf actor state after) :
    Rival before after id seq := by
  obtain ⟨other, number, different, overlaps, claimed, place⟩ := rival
  exact ⟨other, number, different, overlaps, steps.claimed_of claimed, by rw [steps.place, steps.place, place]⟩

/-- What a call that has lost its slot, or is about to, knows of the others. -/
def Overtaken (before state : State) (id : Nat) : SubmitPhase → Prop
  | .claiming _ seq cur => (state.ring (state.place seq)).gen = cur ∨ Rival before state id seq
  | .returned _ seq false => Rival before state id seq
  | _ => True

structure Watched (before state : State) (id : Nat) : Prop where
  settled : ∀ other, (before.calls other).Finished → state.calls other = before.calls other
  overtaken : Overtaken before state id (state.calls id)

/-- What another call does to the slot that a call is about to claim makes it a rival. -/
theorem Overtaken.frame {actor : Nat} {phase : SubmitPhase} (overtaken : Overtaken before state id phase)
    (settled : ∀ other, (before.calls other).Finished → state.calls other = before.calls other)
    (steps : StepsOf actor state after) (different : actor ≠ id) : Overtaken before after id phase := by
  have place := steps.place
  cases phase with
  | claiming formatted seq cur =>
    rcases overtaken with same | rival
    · by_cases changed : (after.ring (state.place seq)).gen = (state.ring (state.place seq)).gen
      · exact .inl (by rw [place, changed, same])
      · obtain ⟨number, _, claimed, here, _⟩ := steps.gens _ changed
        refine .inr ⟨actor, number, different, ?_, claimed, by rw [place, place, here]⟩
        intro finished
        rw [← settled actor finished] at finished
        exact steps.pending finished
    · exact .inr (rival.later steps)
  | returned formatted seq kept =>
    cases kept with
    | true => trivial
    | false => exact Rival.later overtaken steps
  | _ => trivial

theorem not_finished_of_owns {phase : SubmitPhase} {seq : UInt64} (owns : phase.owns? = some seq) : ¬phase.Finished := by
  rintro ⟨formatted, number, kept, rfl⟩
  cases owns

theorem claimed?_of_owns? {phase : SubmitPhase} {seq : UInt64} (owns : phase.owns? = some seq) :
    phase.claimed? = some seq := by
  cases phase <;> first | exact owns | cases owns

/-- A slot that carries the flag is owned by some call. -/
theorem Sound.owner (sound : Sound state) (unexhausted : Unexhausted state) {index : Nat}
    (marked : (state.ring index).gen &&& writingFlag ≠ 0) :
    ∃ owner number, (state.calls owner).owns? = some number ∧ state.place number = index := by
  rcases sound.slots index with free | ⟨owner, number, owns, place, _⟩ | ⟨formatted, kept, _⟩
  · rw [free] at marked
    exact absurd (by decide) marked
  · exact ⟨owner, number, owns, place⟩
  · exact absurd (sound.numbering.kept_clear unexhausted kept) marked

theorem StepsOf.settled {actor : Nat} (steps : StepsOf actor state after)
    (settled : ∀ other, (before.calls other).Finished → state.calls other = before.calls other) (other : Nat)
    (finished : (before.calls other).Finished) : after.calls other = before.calls other := by
  have same := settled other finished
  have different : other ≠ actor := by
    rintro rfl
    exact steps.pending (same ▸ finished)
  rw [steps.others other different, same]

theorem Submits.watched (submits : Submits state after) (sound : Sound state) (unexhausted : Unexhausted state)
    (watched : Watched before state id) : Watched before after id := by
  obtain ⟨actor, steps⟩ := submits.stepsOf
  refine ⟨steps.settled watched.settled, ?_⟩
  by_cases different : actor = id
  · subst different
    cases now : after.calls actor with
    | claiming formatted seq cur => exact .inl (by rw [steps.place, steps.loads now])
    | returned formatted seq kept =>
      cases kept with
      | true => trivial
      | false =>
        have rival : Rival before state actor seq := by
          rcases (steps.drops now).2 with marked | ⟨cur, was, other⟩
          · obtain ⟨owner, number, owns, here⟩ := sound.owner unexhausted marked
            refine ⟨owner, number, ?_, ?_, claimed?_of_owns? owns, here⟩
            · rintro rfl
              have claimed := steps.claimed (claimed?_of_owns? owns)
              rw [now] at claimed
              cases claimed
            · intro finished
              rw [← watched.settled owner finished] at finished
              exact not_finished_of_owns owns finished
          · have overtaken := watched.overtaken
            rw [was] at overtaken
            exact overtaken.resolve_left other
        exact rival.later steps
    | _ => trivial
  · rw [steps.others id (Ne.symm different)]
    exact watched.overtaken.frame watched.settled steps different

theorem Moves.watched (moves : Moves state after) (sound : Sound state) (unexhausted : Unexhausted state)
    (watched : Watched before state id) : Watched before after id := by
  cases moves with
  | submit submits => exact submits.watched sound unexhausted watched
  | read reads => cases reads <;> exact ⟨watched.settled, watched.overtaken⟩

theorem run_watched {acts : List Act} (orderly : Unexhausted state → Orderly state) (watched : Watched before state id)
    (ran : Interleaving.run step state acts = some after) (unexhausted : Unexhausted after) :
    Orderly after ∧ Watched before after id := by
  refine Interleaving.run_keeps (fun state => Unexhausted state → Orderly state ∧ Watched before state id) ?_
    (fun lasting => ⟨orderly lasting, watched⟩) ran unexhausted
  intro state after act kept moved unexhausted
  have moves := step_moves moved
  have lasting := moves.unexhausted unexhausted
  obtain ⟨orderly, watched⟩ := kept lasting
  exact ⟨⟨moves.sound orderly.sound unexhausted, moves.visited orderly.sound orderly.visited⟩,
    moves.watched orderly.sound lasting watched⟩

theorem seq?_of_claimed? {phase : SubmitPhase} {seq : UInt64} (claimed : phase.claimed? = some seq) :
    phase.seq? = some seq := by
  cases phase with
  | returned formatted number kept =>
    cases kept with
    | true => exact claimed
    | false => cases claimed
  | _ => first | exact claimed | cases claimed

/-- Two numbers of one slot are a turn of the ring apart. -/
theorem turn_apart {cap left right : Nat} (same : left % cap = right % cap) (different : left ≠ right) :
    left + cap ≤ right ∨ right + cap ≤ left := by
  rcases Nat.lt_or_ge left right with less | more
  · have divides : cap ∣ right - left := (Nat.modEq_iff_dvd' less.le).mp same
    have far := Nat.le_of_dvd (by omega) divides
    omega
  · have divides : cap ∣ left - right := (Nat.modEq_iff_dvd' more).mp same.symm
    have far := Nat.le_of_dvd (by omega) divides
    omega

/-- A call drops its record only when another call that ran at the same time, with a number
a whole turn of the ring away, has claimed its slot. -/
theorem dropped_only_when_lapped (slots slotBytes : Nat) {acts later : List Act} {before state : State} {id : Nat}
    {formatted : Bytes} {seq : UInt64} (reached : Interleaving.run step (.new slots slotBytes) acts = some before)
    (idle : before.calls id = .idle) (ran : Interleaving.run step before later = some state)
    (few : state.writeSeq < 2 ^ 63) (dropped : state.calls id = .returned formatted seq false) :
    ∃ other number, other ≠ id ∧ ¬(before.calls other).Finished ∧ (state.calls other).claimed? = some number ∧
      state.place number = state.place seq ∧
      (seq.toNat + state.slotsCap ≤ number.toNat ∨ number.toNat + state.slotsCap ≤ seq.toNat) := by
  have watched : Watched before before id := ⟨fun _ _ => rfl, by rw [idle]; trivial⟩
  obtain ⟨orderly, settled, overtaken⟩ :=
    run_watched (fun lasting => run_orderly (fun _ => new_orderly slots slotBytes) reached lasting) watched ran few
  rw [dropped] at overtaken
  obtain ⟨other, number, different, overlaps, claimed, place⟩ := overtaken
  refine ⟨other, number, different, overlaps, claimed, place, turn_apart place.symm ?_⟩
  intro same
  have numbered : (state.calls id).seq? = some seq := by
    rw [dropped]
    rfl
  rw [UInt64.toNat_inj.mp same] at numbered
  exact different (orderly.sound.numbering.apart other id number (seq?_of_claimed? claimed) numbered)

/-- A ring of one slot, whose owner has not published yet. -/
theorem dropped_only_when_lapped_one_slot :
    ∃ state, Interleaving.run step (.new 1 64) [.call 0 [65], .number 0, .load 0, .claim 0, .call 1 [66], .number 1,
        .load 1] = some state ∧
      ∃ other number, other ≠ 1 ∧ (state.calls other).claimed? = some number ∧ state.place number = state.place 1 := by
  obtain ⟨state, ran, few, dropped⟩ : ∃ state, Interleaving.run step (.new 1 64) [.call 0 [65], .number 0, .load 0,
        .claim 0, .call 1 [66], .number 1, .load 1] = some state ∧ state.writeSeq < 2 ^ 63 ∧
      state.calls 1 = .returned [66] 1 false := ⟨_, rfl, by decide, rfl⟩
  obtain ⟨other, number, different, _, claimed, place, _⟩ :=
    dropped_only_when_lapped 1 64 (show Interleaving.run step (.new 1 64) [] = some _ from rfl) rfl ran few dropped
  exact ⟨state, ran, other, number, different, claimed, place⟩

end RingBufferSink

end Log

end Enigma
