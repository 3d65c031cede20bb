import Enigma.Engine.RacingCompactions
import Mathlib.Data.Prod.Lex

/-! A compaction that loses a race. At the edit it is told so, and answers that
nothing was done. A call that has chosen its inputs refers to no version, so its
inputs may be unlinked before it opens them; then it answers with an error. -/

namespace Enigma

/-- A policy that picks at least one table, and only tables it was shown. -/
def CompactionPolicy.PicksLive (policy : CompactionPolicy) : Prop :=
  ∀ live candidate, policy.pick live = some candidate →
    candidate.inputs ≠ [] ∧ ∀ id ∈ candidate.inputs, id ∈ live.map SSTableMeta.id

theorem fullCompactionPolicy_picksLive : fullCompactionPolicy.PicksLive := by
  intro live candidate picked
  simp only [fullCompactionPolicy] at picked
  split at picked
  · cases picked
  · rename_i filled
    cases picked
    refine ⟨?_, fun id member => member⟩
    intro empty
    exact filled (by simpa using congrArg List.length empty)

theorem sizeTieredCompactionPolicy_picksLive (minMergeWidth maxMergeWidth : Nat) (bucketLow bucketHigh : ℚ) :
    (sizeTieredCompactionPolicy minMergeWidth maxMergeWidth bucketLow bucketHigh).PicksLive := by
  intro live candidate picked
  have returned := sizeTiered_pick_iff.mp picked
  exact ⟨SizeTiered.pick_ne_nil returned, (SizeTiered.pick_spec returned).1⟩

namespace Engine

/-- The steps a call has left, counted in the order of its phases. -/
def Phase.remaining : Phase → Nat ×ₗ Nat
  | .idle | .finished _ => toLex (0, 0)
  | .reclaiming ids _ => toLex (1, ids.length)
  | .written _ _ | .flushed _ => toLex (2, 0)
  | .opening _ waiting _ => toLex (3, waiting.length)
  | .picked _ => toLex (4, 0)

namespace Site

/-- A table file that the reader accepts. -/
def Accepted (site : Site) (id : SSTableId) : Prop :=
  ∃ estimatedKeys entries, site.sst.find? id = some (.whole estimatedKeys entries) ∧ estimatedKeys ≠ 0

/-- Every live table holds a value. -/
def HoldsValues (site : Site) : Prop :=
  ∀ id ∈ site.version.files.keys, ∃ entry ∈ site.entriesAt id, entry.2.isTombstone = false

instance (site : Site) : Decidable site.HoldsValues := inferInstanceAs (Decidable (∀ id ∈ _, ∃ entry ∈ _, _))

/-- Compactions are called when every live table holds a value. -/
def OverValues (site : Site) : Move → Prop
  | .start _ (.doCompactWork policy) => policy.PicksLive ∧ site.HoldsValues
  | .start _ .compactNow => site.HoldsValues
  | _ => True

/-- Whatever is unlinked, no call has chosen it and not yet opened it. -/
def SparesAwaited (site : Site) : Move → Prop
  | .resume thread _ => ∀ id later answer, site.threads thread = .reclaiming (id :: later) answer →
      ∀ other, id ∉ (site.threads other).awaited
  | _ => True

/-- A call at this phase has what it takes to end without an error. -/
structure Promising (site : Site) (phase : Phase) : Prop where
  awaited : ∀ id ∈ phase.awaited, site.Accepted id
  picked : ∀ candidate, phase = .picked candidate → ∃ id ∈ candidate.inputs, site.entriesAt id ≠ []
  opening : ∀ task waiting opened, phase = .opening task waiting opened →
    (∃ table ∈ opened, table.info.entryCount ≠ 0) ∨ ∃ id ∈ waiting, site.entriesAt id ≠ []
  written : ∀ task opened, phase = .written task opened → site.Accepted task.outputId
  flushed : ∀ id, phase = .flushed id → site.Accepted id
  finished : ∀ answer, phase = .finished answer → ∃ result, answer = .ok result

structure Answered (site : Site) : Prop where
  named : ∀ id row, site.version.files.find? id = some row → row.id = id
  live : ∀ id ∈ site.version.files.keys, site.Accepted id
  phases : ∀ thread, Promising site (site.threads thread)

section

variable {shape : TableShape} {site after : Site} {phase : Phase} {thread : Nat}

theorem promising_finished (result : Option SSTableId) : Promising site (.finished (.ok result)) where
  awaited := by simp [Phase.awaited]
  picked := by simp
  opening := by simp
  written := by simp
  flushed := by simp
  finished := fun answer same => ⟨result, by cases same; rfl⟩

theorem promising_reclaiming (ids : List SSTableId) (answer : Option SSTableId) :
    Promising site (.reclaiming ids answer) where
  awaited := by simp [Phase.awaited]
  picked := by simp
  opening := by simp
  written := by simp
  flushed := by simp
  finished := by simp

/-- Other calls leave the files that a call waits for or publishes. -/
theorem Promising.frame (promising : Promising site phase)
    (files : ∀ id, id ∈ phase.awaited ∨ phase.output = some id → after.sst.find? id = site.sst.find? id) :
    Promising after phase where
  awaited := by
    intro id waits
    obtain ⟨estimatedKeys, entries, found, positive⟩ := promising.awaited id waits
    exact ⟨estimatedKeys, entries, (files id (.inl waits)).trans found, positive⟩
  picked := by
    rintro candidate rfl
    obtain ⟨id, waits, filled⟩ := promising.picked candidate rfl
    refine ⟨id, waits, ?_⟩
    rwa [entriesAt, files id (.inl waits)]
  opening := by
    rintro task waiting opened rfl
    rcases promising.opening task waiting opened rfl with read | ⟨id, waits, filled⟩
    · exact .inl read
    · refine .inr ⟨id, waits, ?_⟩
      rwa [entriesAt, files id (.inl waits)]
  written := by
    rintro task opened rfl
    obtain ⟨estimatedKeys, entries, found, positive⟩ := promising.written task opened rfl
    exact ⟨estimatedKeys, entries, (files _ (.inr rfl)).trans found, positive⟩
  flushed := by
    rintro id rfl
    obtain ⟨estimatedKeys, entries, found, positive⟩ := promising.flushed id rfl
    exact ⟨estimatedKeys, entries, (files _ (.inr rfl)).trans found, positive⟩
  finished := promising.finished

/-- A thread enters a phase while others see the same files. -/
theorem Answered.enter (answered : Answered site) (threads : after.threads = site.threads)
    (named : ∀ id row, after.version.files.find? id = some row → row.id = id)
    (live : ∀ id ∈ after.version.files.keys, after.Accepted id) (entered : Promising after phase)
    (files : ∀ other, other ≠ thread → ∀ id, id ∈ (site.threads other).awaited ∨ (site.threads other).output = some id →
      after.sst.find? id = site.sst.find? id) : Answered (after.enter thread phase) where
  named := named
  live := live
  phases := by
    have moved : ∀ other, Promising after other → Promising (after.enter thread phase) other := by
      intro other promising
      exact ⟨promising.awaited, promising.picked, promising.opening, promising.written, promising.flushed,
        promising.finished⟩
    intro probe
    by_cases here : probe = thread
    · subst here
      rw [enter_thread]
      exact moved phase entered
    · rw [enter_other _ _ here, threads]
      exact moved _ ((answered.phases probe).frame (files probe here))

theorem Answered.enter_only (answered : Answered site) (entered : Promising site phase) : Answered (site.enter thread phase) :=
  answered.enter rfl answered.named answered.live entered fun _ _ _ _ => rfl

theorem Accepted.readable {id : SSTableId} (accepted : site.Accepted id) (shape : TableShape) :
    ∃ file info, site.sst.find? id = some file ∧ (entryFormat shape).create file = .ok info ∧
      info.entryCount = (site.entriesAt id).length := by
  obtain ⟨estimatedKeys, entries, found, positive⟩ := accepted
  exact ⟨_, _, found, entryFormat_create_whole shape entries positive, by rw [entriesAt_of_find? found]; rfl⟩

theorem Accepted.stored {id : SSTableId} (accepted : site.Accepted id) : id ∈ site.sst.keys := by
  obtain ⟨estimatedKeys, entries, found, _⟩ := accepted
  exact SortedMap.mem_keys_iff.mpr ⟨_, found⟩

theorem Accepted.congr {id : SSTableId} (accepted : site.Accepted id) (same : after.sst.find? id = site.sst.find? id) :
    after.Accepted id := by
  obtain ⟨estimatedKeys, entries, found, positive⟩ := accepted
  exact ⟨estimatedKeys, entries, same.trans found, positive⟩

/-- What a call chooses is live, and holds an entry. -/
theorem Answered.pick (answered : Answered site) {job : Job} {candidate : CompactionCandidate}
    (valued : site.OverValues (.start thread job)) (chosen : job.pick site.version = some candidate) :
    Promising site (.picked candidate) := by
  have ids : site.version.sstMetaToVector.map SSTableMeta.id = site.version.files.keys := Version.metas_ids answered.named
  have good : (candidate.inputs ≠ [] ∧ ∀ id ∈ candidate.inputs, id ∈ site.version.files.keys) ∧ site.HoldsValues := by
    cases job with
    | flush memtable => cases chosen
    | doCompactWork policy =>
      have picks := valued.1 _ candidate chosen
      rw [ids] at picks
      exact ⟨picks, valued.2⟩
    | compactNow =>
      simp only [Job.pick] at chosen
      split at chosen
      · cases chosen
      · rename_i filled
        cases chosen
        refine ⟨⟨?_, ?_⟩, valued⟩
        · intro empty
          have none := List.length_eq_zero_iff.mpr empty
          rw [List.length_insertionSort, List.length_map] at none
          exact filled (List.length_eq_zero_iff.mp none)
        · intro id member
          rw [← ids]
          exact (List.mem_insertionSort _).mp member
  obtain ⟨⟨filled, live⟩, values⟩ := good
  refine ⟨fun id member => answered.live id (live id member), ?_, by simp, by simp, by simp, by simp⟩
  intro other same
  cases same
  obtain ⟨id, later, split⟩ := List.exists_cons_of_ne_nil filled
  have member : id ∈ candidate.inputs := by simp [split]
  obtain ⟨entry, held, _⟩ := values id (live id member)
  exact ⟨id, member, List.ne_nil_of_mem held⟩

theorem Answered.open (answered : Answered site) {task : CompactionTask} {id : SSTableId} {waiting : List SSTableId}
    {opened : List OpenTable} {file : EntryFile} {info : TableInfo}
    (stands : site.threads thread = .opening task (id :: waiting) opened) (found : site.sst.find? id = some file)
    (accepted : (entryFormat shape).create file = .ok info) :
    Promising site (.opening task waiting (opened ++ [⟨id, info, file⟩])) := by
  have promising := answered.phases thread
  rw [stands] at promising
  refine ⟨fun other member => promising.awaited other (List.mem_cons_of_mem _ member), by simp, ?_, by simp, by simp, by simp⟩
  intro same left loaded equal
  cases equal
  rcases promising.opening task (id :: waiting) opened rfl with ⟨table, member, filled⟩ | ⟨other, member, filled⟩
  · exact .inl ⟨table, List.mem_append_left _ member, filled⟩
  · rcases List.mem_cons.mp member with rfl | later
    · have awaits := promising.awaited other (by simp [Phase.awaited])
      obtain ⟨stored, footer, present, reads, count⟩ := awaits.readable shape
      rw [found] at present
      cases present
      rw [accepted] at reads
      cases reads
      refine .inl ⟨⟨other, info, file⟩, by simp, ?_⟩
      change info.entryCount ≠ 0
      rw [count]
      exact mt List.length_eq_zero_iff.mp filled
    · exact .inr ⟨other, later, filled⟩

variable (shape) in
theorem Answered.merged_accepted (answered : Answered site) {task : CompactionTask} {opened : List OpenTable}
    (stands : site.threads thread = .opening task [] opened) :
    ∃ estimatedKeys entries, merged shape task opened = .whole estimatedKeys entries ∧ estimatedKeys ≠ 0 := by
  have promising := answered.phases thread
  rw [stands] at promising
  refine ⟨_, _, merged_eq task opened, ?_⟩
  rcases promising.opening task [] opened rfl with ⟨table, member, filled⟩ | ⟨id, none, _⟩
  · intro zero
    exact filled (List.sum_eq_zero_iff_forall_eq_nat.mp zero _ (List.mem_map.mpr ⟨table, member, rfl⟩))
  · cases none

theorem Answered.publish (answered : Answered site) {pins : Nat → Nat} {id : SSTableId} {removed ids : List SSTableId}
    {info : TableInfo} {versions : VersionSet} {installed : List Entry} {consumed : List (List SSTableId)}
    (answer : Option SSTableId) (accepted : site.Accepted id)
    (applied : VersionSet.Applied pins site.versionSet ⟨removed, [tableMeta id info]⟩ ids versions) :
    Answered ({ site with versionSet := versions, installed := installed, consumed := consumed }.enter thread
      (.reclaiming ids answer)) := by
  refine answered.enter rfl ?_ ?_ (promising_reclaiming ids answer) fun _ _ _ _ => rfl
  · intro probe row found
    change versions.currentVersion.files.find? probe = some row at found
    rw [applied.current] at found
    simp only [VersionSet.edited, List.foldl_cons, List.foldl_nil, SortedMap.find?_insert,
      SortedMap.foldl_erase_find?] at found
    split at found
    · rename_i same
      cases found
      exact same.symm
    · split at found
      · cases found
      · exact answered.named probe row found
  · intro probe listed
    rcases (mem_published applied probe).mp listed with ⟨before, _⟩ | rfl
    · exact answered.live probe before
    · exact accepted

/-- A flush writes a file under a number that nobody knows yet. -/
theorem Answered.flush (answered : Answered site) (consistent : Consistent shape site) (thread : Nat) {memtable : Memtable}
    (filled : memtable.count ≠ 0) : Answered ({ site with
      sst := site.sst.insert site.nextSstSeq (.whole memtable.count memtable.entries.bindings)
      nextSstSeq := site.nextSstSeq + 1 }.enter thread (.flushed site.nextSstSeq)) := by
  have older : ∀ id, id < site.nextSstSeq → (site.sst.insert site.nextSstSeq
      (.whole memtable.count memtable.entries.bindings)).find? id = site.sst.find? id := by
    intro id less
    rw [SortedMap.find?_insert, if_neg (ne_of_lt less)]
  refine answered.enter rfl answered.named ?_ ?_ ?_
  · intro id listed
    exact (answered.live id listed).congr (older id (consistent.below id (consistent.live id listed)))
  · refine ⟨by simp [Phase.awaited], by simp, by simp, by simp, ?_, by simp⟩
    intro id same
    cases same
    exact ⟨_, _, (SortedMap.find?_insert _ _ _ _).trans (if_pos rfl), filled⟩
  · intro other _ id known
    apply older
    rcases known with waits | output
    · exact consistent.below id ((answered.phases other).awaited id waits).stored
    · exact ((consistent.phases other).output id output).1

theorem Answered.mint (answered : Answered site) {candidate : CompactionCandidate}
    (stands : site.threads thread = .picked candidate) :
    Answered ({ site with nextSstSeq := site.nextSstSeq + 1 }.enter thread
      (.opening ⟨candidate.inputs, site.nextSstSeq, candidate.canDropTombstone⟩ candidate.inputs [])) := by
  have promising := answered.phases thread
  rw [stands] at promising
  refine answered.enter rfl answered.named answered.live ?_ fun _ _ _ _ => rfl
  refine ⟨promising.awaited, by simp, ?_, by simp, by simp, by simp⟩
  intro task waiting opened same
  cases same
  exact .inr (promising.picked candidate rfl)

theorem Answered.write (answered : Answered site) (consistent : Consistent shape site) {task : CompactionTask}
    {opened : List OpenTable} (stands : site.threads thread = .opening task [] opened) :
    Answered ({ site with sst := site.sst.insert task.outputId (merged shape task opened) }.enter thread
      (.written task opened)) := by
  have fits := consistent.phases thread
  rw [stands] at fits
  have unwritten := (fits.opening task [] opened rfl).1
  have others : ∀ id, id ≠ task.outputId →
      (site.sst.insert task.outputId (merged shape task opened)).find? id = site.sst.find? id := by
    intro id different
    rw [SortedMap.find?_insert, if_neg different]
  refine answered.enter rfl answered.named ?_ ?_ ?_
  · intro id listed
    refine (answered.live id listed).congr (others id ?_)
    rintro rfl
    exact (fits.output _ rfl).2.1 listed
  · refine ⟨by simp [Phase.awaited], by simp, by simp, ?_, by simp, by simp⟩
    intro other loaded same
    cases same
    obtain ⟨estimatedKeys, entries, whole, positive⟩ := answered.merged_accepted shape stands
    exact ⟨estimatedKeys, entries, by simp [whole], positive⟩
  · intro other different id known
    apply others
    rintro rfl
    rcases known with waits | output
    · exact unwritten ((answered.phases other).awaited _ waits).stored
    · exact different (consistent.apart other thread _ output (by rw [stands]; rfl))

/-- The reader accepts the output of a call that has written it. -/
theorem Answered.output_accepted (answered : Answered site) {id : SSTableId}
    (stands : (site.threads thread).output = some id)
    (unread : ∀ task waiting opened, site.threads thread ≠ .opening task waiting opened) : site.Accepted id := by
  have promising := answered.phases thread
  cases phase : site.threads thread with
  | opening task waiting opened => exact absurd phase (unread task waiting opened)
  | written task opened =>
    rw [phase] at stands
    cases stands
    exact promising.written task opened phase
  | flushed table =>
    rw [phase] at stands
    cases stands
    exact promising.flushed id phase
  | idle | picked _ | reclaiming _ _ | finished _ =>
    rw [phase] at stands
    cases stands

theorem Answered.unlink (answered : Answered site) (consistent : Consistent shape site) {id : SSTableId}
    {later : List SSTableId} {answer : Option SSTableId} (stands : site.threads thread = .reclaiming (id :: later) answer)
    (spares : ∀ other, id ∉ (site.threads other).awaited) :
    Answered ({ site with sst := site.sst.erase id }.enter thread (.reclaiming later answer)) := by
  have fits := consistent.phases thread
  rw [stands] at fits
  have consumed : site.Consumed id := fits.doomed id (by simp [Phase.doomed])
  have others : ∀ probe, probe ≠ id → (site.sst.erase id).find? probe = site.sst.find? probe := by
    intro probe different
    rw [SortedMap.find?_erase, if_neg different]
  refine answered.enter rfl answered.named ?_ (promising_reclaiming later answer) ?_
  · intro probe listed
    refine (answered.live probe listed).congr (others probe ?_)
    rintro rfl
    exact (consistent.retired _ consumed).1 listed
  · intro other _ probe known
    apply others
    rintro rfl
    rcases known with waits | output
    · exact spares other waits
    · exact ((consistent.phases other).output _ output).2.2 consumed

theorem Answered.step (answered : Answered site) (consistent : Consistent shape site) {move : Move}
    (valued : site.OverValues move) (spares : site.SparesAwaited move) : Answered (site.step shape move) := by
  have moves := step_moves shape site move
  generalize site.step shape move = after at moves
  cases moves with
  | stays => exact answered
  | returns done => exact answered.enter_only (promising_finished none)
  | @flushes thread memtable filled => exact answered.flush consistent thread filled
  | picks chosen => exact answered.enter_only (answered.pick valued chosen)
  | mints stands => exact answered.mint stands
  | @misses thread pins task id waiting opened stands unreadable =>
    have promising := answered.phases thread
    rw [stands] at promising
    obtain ⟨file, info, found, reads, _⟩ := (promising.awaited id (by simp [Phase.awaited])).readable shape
    exact absurd reads (unreadable file info found)
  | opens stands found accepted => exact answered.enter_only (answered.open stands found accepted)
  | writes stands => exact answered.write consistent stands
  | fails stands unread unreadable =>
    obtain ⟨file, info, found, reads, _⟩ := (answered.output_accepted stands unread).readable shape
    exact absurd reads (unreadable file info found)
  | loses stands stale => exact answered.enter_only (promising_finished none)
  | @installs thread pins task opened file info ids versions stands found accepted applied =>
    exact answered.publish _ ((answered.phases thread).written task opened stands) applied
  | @installsFlushed thread pins id file info ids versions stands found accepted applied =>
    exact answered.publish none ((answered.phases thread).flushed id stands) applied
  | unlinks stands => exact answered.unlink consistent stands (spares _ _ _ stands)
  | ends stands => exact answered.enter_only (promising_finished _)

theorem toLex_lt_of_fst {first second left right : Nat} (less : first < second) :
    (toLex (first, left) : Nat ×ₗ Nat) < toLex (second, right) :=
  Prod.Lex.toLex_lt_toLex.mpr (.inl less)

/-- Every step of a call brings it closer to its end. -/
theorem resume_remaining (pins : Nat → Nat) (busy : (site.threads thread).isFree = false) :
    ((site.resume shape pins thread).threads thread).remaining < (site.threads thread).remaining := by
  rw [resume]
  cases stands : site.threads thread with
  | idle | finished _ =>
    rw [stands] at busy
    cases busy
  | picked candidate =>
    rw [enter_thread]
    exact toLex_lt_of_fst (by decide)
  | opening task waiting opened =>
    cases waiting with
    | nil =>
      rw [enter_thread]
      exact toLex_lt_of_fst (by decide)
    | cons id waiting =>
      dsimp only
      have ended : ∀ answer, (Phase.finished answer).remaining < (Phase.opening task (id :: waiting) opened).remaining :=
        fun _ => toLex_lt_of_fst (by decide)
      split
      · rw [enter_thread]
        exact ended _
      · split
        · rw [enter_thread]
          exact ended _
        · rw [enter_thread]
          exact Prod.Lex.toLex_lt_toLex.mpr (.inr ⟨rfl, by simp⟩)
  | written task opened =>
    dsimp only
    split
    · rw [enter_thread]
      exact toLex_lt_of_fst (by decide)
    · rw [enter_thread]
      exact toLex_lt_of_fst (by decide)
  | flushed id =>
    dsimp only
    split
    · rw [enter_thread]
      exact toLex_lt_of_fst (by decide)
    · rw [enter_thread]
      exact toLex_lt_of_fst (by decide)
  | reclaiming ids answer =>
    cases ids with
    | nil =>
      rw [enter_thread]
      exact toLex_lt_of_fst (by decide)
    | cons id later =>
      rw [enter_thread]
      exact Prod.Lex.toLex_lt_toLex.mpr (.inr ⟨rfl, by simp⟩)

/-- A directory as `open` accepts it. -/
def Openable (sst : SortedMap SSTableId EntryFile) : Prop :=
  ∀ id file, sst.find? id = some file →
    ∃ estimatedKeys entries, file = .whole estimatedKeys entries ∧ estimatedKeys ≠ 0 ∧ Assoc.Ascending entries

theorem Openable.sorted {sst : SortedMap SSTableId EntryFile} (openable : Openable sst) :
    ∀ id file, sst.find? id = some file → Sorted file := by
  intro id file found
  obtain ⟨estimatedKeys, entries, whole, _, ascending⟩ := openable id file found
  exact ⟨estimatedKeys, entries, whole, ascending⟩

theorem start_answered {sst : SortedMap SSTableId EntryFile} (openable : Openable sst) : Answered (start shape sst) where
  named := by
    intro id row found
    change (sst.mapValues _).find? id = some row at found
    rw [SortedMap.find?_mapValues] at found
    obtain ⟨file, _, same⟩ := Option.map_eq_some_iff.mp found
    rw [← same]
    split <;> rfl
  live := by
    intro id listed
    have stored := (start_consistent openable.sorted).live id listed
    obtain ⟨file, found⟩ := SortedMap.mem_keys_iff.mp stored
    obtain ⟨estimatedKeys, entries, whole, positive, _⟩ := openable id file found
    exact ⟨estimatedKeys, entries, whole ▸ found, positive⟩
  phases := fun _ => ⟨by simp [start, Phase.awaited], by simp [start], by simp [start], by simp [start], by simp [start],
    by simp [start]⟩

end

theorem singleTable_openable : Openable singleTable := by
  intro id file found
  rw [singleTable, SortedMap.find?_insert] at found
  split at found
  · cases found
    exact ⟨_, _, rfl, by decide, List.pairwise_singleton _ _⟩
  · cases found

/-- Two compactions choose the same table; the first one has not opened it when
the second one has installed its output and unlinked the table. -/
def lateOpening : List Move :=
  [.start 0 .compactNow, .start 1 .compactNow, .resume 1 fun _ => 0, .resume 1 fun _ => 0, .resume 1 fun _ => 0,
    .resume 1 fun _ => 0, .resume 1 fun _ => 0, .resume 0 fun _ => 0, .resume 0 fun _ => 0]

end Site

end Engine

end Enigma
