import Enigma.Engine.LiveCompaction
import Mathlib.Logic.Function.Basic

/-! Flushes and compactions on several threads. A call moves from phase to phase,
and between two moves of one call any other call may move. Only the counter, the
version set and the table files are shared; the set answers one edit at a time. -/

namespace Enigma

namespace Engine

/-- An input that a compaction has opened. Its reader keeps the file when the
name is gone from the directory. -/
structure OpenTable where
  id : SSTableId
  info : TableInfo
  file : EntryFile

/-- Where a call stands. -/
inductive Phase where
  | idle
  /-- Inputs are chosen. The version they come from is not referred to any more. -/
  | picked (candidate : CompactionCandidate)
  | opening (task : CompactionTask) (waiting : List SSTableId) (opened : List OpenTable)
  | written (task : CompactionTask) (opened : List OpenTable)
  | flushed (id : SSTableId)
  | reclaiming (ids : List SSTableId) (answer : Option SSTableId)
  | finished (answer : Except Error (Option SSTableId))

/-- What the threads share, and where each of them stands. The entries that
flushes have installed and the inputs that installed compactions have consumed
are kept as a record. -/
structure Site where
  sst : SortedMap SSTableId EntryFile
  versionSet : VersionSet
  nextSstSeq : Nat
  threads : Nat → Phase
  installed : List Entry
  consumed : List (List SSTableId)

/-- What a thread may be asked to do. -/
inductive Job where
  | flush (memtable : Memtable)
  | doCompactWork (policy : CompactionPolicy)
  | compactNow

inductive Move where
  | start (thread : Nat) (job : Job)
  /-- One step of a call. The references that readers hold matter when it is an edit. -/
  | resume (thread : Nat) (pins : Nat → Nat)

/-- The inputs that a compaction call takes from the current version. -/
def Job.pick (version : Version) : Job → Option CompactionCandidate
  | .flush _ => none
  | .doCompactWork policy => policy.pick version.sstMetaToVector
  | .compactNow =>
    let metas := version.sstMetaToVector
    if metas = [] then none else some ⟨(metas.map SSTableMeta.id).insertionSort (· ≤ ·), true⟩

namespace Phase

/-- The table a call is about to publish. -/
def output : Phase → Option SSTableId
  | .opening task _ _ | .written task _ => some task.outputId
  | .flushed id => some id
  | _ => none

/-- The inputs a call has opened. -/
def inputs : Phase → List OpenTable
  | .opening _ _ opened | .written _ opened => opened
  | _ => []

/-- The inputs a call has chosen and not yet opened. -/
def awaited : Phase → List SSTableId
  | .picked candidate => candidate.inputs
  | .opening _ waiting _ => waiting
  | _ => []

/-- The files a call still has to unlink. -/
def doomed : Phase → List SSTableId
  | .reclaiming ids _ => ids
  | _ => []

/-- A thread takes a new job when it has none. -/
def isFree : Phase → Bool
  | .idle | .finished _ => true
  | _ => false

end Phase

namespace Site

def version (site : Site) : Version := site.versionSet.currentVersion

def enter (site : Site) (thread : Nat) (phase : Phase) : Site :=
  { site with threads := Function.update site.threads thread phase }

variable (shape : TableShape)

/-- The directory that `open` has accepted, with every table live. -/
def start (sst : SortedMap SSTableId EntryFile) : Site where
  sst := sst
  versionSet := .new (sst.mapValues fun id file =>
    match (entryFormat shape).create file with
    | .ok info => tableMeta id info
    | .error _ => ⟨id, 0, 0, 0⟩)
  nextSstSeq := highestOf sst.keys + 1
  threads := fun _ => .idle
  installed := sst.bindings.flatMap fun binding => binding.2.entries
  consumed := []

/-- The table that a compaction writes from its opened inputs. -/
def merged (task : CompactionTask) (opened : List OpenTable) : EntryFile :=
  (entryFormat shape).complete (opened.map fun table => table.info.entryCount).sum
    (compactedEntries (opened.map fun table => (entryFormat shape).scan table.file fun _ => none) task.canDropTombstone)

/-- Read the footer of a new table and publish an edit that adds it. -/
def publish (pins : Nat → Nat) (site : Site) (id : SSTableId) (removed : List SSTableId) :
    Except Error (List SSTableId × Site) :=
  match site.sst.find? id with
  | none => .error noSuchFile
  | some file =>
    match (entryFormat shape).create file with
    | .error error => .error error
    | .ok info =>
      match site.versionSet.apply pins ⟨removed, [tableMeta id info]⟩ with
      | .error error => .error error
      | .ok (ids, versionSet) => .ok (ids, { site with versionSet := versionSet })

/-- The first step of a call. -/
def begin (site : Site) (thread : Nat) : Job → Site
  | .flush memtable =>
    if memtable.count = 0 then site.enter thread (.finished (.ok none))
    else
      { site with
        sst := site.sst.insert site.nextSstSeq
          ((entryFormat shape).complete memtable.count memtable.entries.bindings)
        nextSstSeq := site.nextSstSeq + 1 }.enter thread (.flushed site.nextSstSeq)
  | job =>
    match job.pick site.version with
    | none => site.enter thread (.finished (.ok none))
    | some candidate => site.enter thread (.picked candidate)

/-- The next step of a call. -/
def resume (pins : Nat → Nat) (site : Site) (thread : Nat) : Site :=
  match site.threads thread with
  | .idle | .finished _ => site
  | .picked candidate =>
    { site with nextSstSeq := site.nextSstSeq + 1 }.enter thread
      (.opening ⟨candidate.inputs, site.nextSstSeq, candidate.canDropTombstone⟩ candidate.inputs [])
  | .opening task (id :: waiting) opened =>
    match site.sst.find? id with
    | none => site.enter thread (.finished (.error missingInput))
    | some file =>
      match (entryFormat shape).create file with
      | .error _ => site.enter thread (.finished (.error missingInput))
      | .ok info => site.enter thread (.opening task waiting (opened ++ [⟨id, info, file⟩]))
  | .opening task [] opened =>
    { site with sst := site.sst.insert task.outputId (merged shape task opened) }.enter thread (.written task opened)
  | .written task _ =>
    match publish shape pins site task.outputId task.inputs with
    | .error error =>
      site.enter thread (.finished (if error.isStaleVersion then .ok none else .error error))
    | .ok (ids, after) =>
      { after with consumed := task.inputs :: after.consumed }.enter thread (.reclaiming ids (some task.outputId))
  | .flushed id =>
    match publish shape pins site id [] with
    | .error error => site.enter thread (.finished (.error error))
    | .ok (ids, after) =>
      { after with installed := after.installed ++ ((after.sst.find? id).map EntryFile.entries).getD [] }.enter thread
        (.reclaiming ids none)
  | .reclaiming (id :: later) answer =>
    { site with sst := site.sst.erase id }.enter thread (.reclaiming later answer)
  | .reclaiming [] answer => site.enter thread (.finished (.ok answer))

def step (site : Site) : Move → Site
  | .start thread job => if (site.threads thread).isFree then site.begin shape thread job else site
  | .resume thread pins => site.resume shape pins thread

def run (site : Site) (moves : List Move) : Site := moves.foldl (step shape) site

/-- Every move of a run meets a condition in the state it starts from. -/
def Along (condition : Site → Move → Prop) : Site → List Move → Prop
  | _, [] => True
  | site, move :: later => condition site move ∧ Along condition (site.step shape move) later

@[simp] theorem enter_thread (site : Site) (thread : Nat) (phase : Phase) : (site.enter thread phase).threads thread = phase := by
  simp [enter]

theorem enter_other (site : Site) {thread other : Nat} (phase : Phase) (different : other ≠ thread) :
    (site.enter thread phase).threads other = site.threads other := by
  simp [enter, different]

/-- All that a move of a thread can do. -/
inductive Moves (site : Site) : Move → Site → Prop where
  | stays {move} : Moves site move site
  | returns {thread job} (done : job.pick site.version = none) :
      Moves site (.start thread job) (site.enter thread (.finished (.ok none)))
  | flushes {thread memtable} (filled : Memtable.count memtable ≠ 0) : Moves site (.start thread (.flush memtable))
      ({ site with
        sst := site.sst.insert site.nextSstSeq (.whole memtable.count memtable.entries.bindings)
        nextSstSeq := site.nextSstSeq + 1 }.enter thread (.flushed site.nextSstSeq))
  | picks {thread job candidate} (chosen : job.pick site.version = some candidate) :
      Moves site (.start thread job) (site.enter thread (.picked candidate))
  | mints {thread pins candidate} (stands : site.threads thread = .picked candidate) :
      Moves site (.resume thread pins)
        ({ site with nextSstSeq := site.nextSstSeq + 1 }.enter thread
          (.opening ⟨candidate.inputs, site.nextSstSeq, candidate.canDropTombstone⟩ candidate.inputs []))
  | misses {thread pins task id waiting opened} (stands : site.threads thread = .opening task (id :: waiting) opened)
      (unreadable : ∀ file info, site.sst.find? id = some file → (entryFormat shape).create file ≠ .ok info) :
      Moves site (.resume thread pins) (site.enter thread (.finished (.error missingInput)))
  | opens {thread pins task id waiting opened file info}
      (stands : site.threads thread = .opening task (id :: waiting) opened) (found : site.sst.find? id = some file)
      (accepted : (entryFormat shape).create file = .ok info) :
      Moves site (.resume thread pins) (site.enter thread (.opening task waiting (opened ++ [⟨id, info, file⟩])))
  | writes {thread pins task opened} (stands : site.threads thread = .opening task [] opened) :
      Moves site (.resume thread pins)
        ({ site with sst := site.sst.insert task.outputId (merged shape task opened) }.enter thread (.written task opened))
  | fails {thread pins id error} (stands : (site.threads thread).output = some id)
      (unread : ∀ task waiting opened, site.threads thread ≠ .opening task waiting opened)
      (unreadable : ∀ file info, site.sst.find? id = some file → (entryFormat shape).create file ≠ .ok info) :
      Moves site (.resume thread pins) (site.enter thread (.finished error))
  | loses {thread pins task opened} (stands : site.threads thread = .written task opened)
      (stale : ∃ id ∈ task.inputs, id ∉ site.version.files.keys) :
      Moves site (.resume thread pins) (site.enter thread (.finished (.ok none)))
  | installs {thread pins task opened file info ids after} (stands : site.threads thread = .written task opened)
      (found : site.sst.find? task.outputId = some file) (accepted : (entryFormat shape).create file = .ok info)
      (applied : VersionSet.Applied pins site.versionSet ⟨task.inputs, [tableMeta task.outputId info]⟩ ids after) :
      Moves site (.resume thread pins)
        ({ site with versionSet := after, consumed := task.inputs :: site.consumed }.enter thread
          (.reclaiming ids (some task.outputId)))
  | installsFlushed {thread pins id file info ids after} (stands : site.threads thread = .flushed id)
      (found : site.sst.find? id = some file) (accepted : (entryFormat shape).create file = .ok info)
      (applied : VersionSet.Applied pins site.versionSet ⟨[], [tableMeta id info]⟩ ids after) :
      Moves site (.resume thread pins)
        ({ site with versionSet := after, installed := site.installed ++ file.entries }.enter thread (.reclaiming ids none))
  | unlinks {thread pins id later answer} (stands : site.threads thread = .reclaiming (id :: later) answer) :
      Moves site (.resume thread pins) ({ site with sst := site.sst.erase id }.enter thread (.reclaiming later answer))
  | ends {thread pins answer} (stands : site.threads thread = .reclaiming [] answer) :
      Moves site (.resume thread pins) (site.enter thread (.finished (.ok answer)))

/-- How publishing ends. -/
theorem publish_cases (pins : Nat → Nat) (site : Site) (id : SSTableId) (removed : List SSTableId) :
    (∃ error, publish shape pins site id removed = .error error ∧
      ∀ file info, site.sst.find? id = some file → (entryFormat shape).create file ≠ .ok info) ∨
    (publish shape pins site id removed = .error VersionSet.staleVersion ∧
      ∃ id ∈ removed, id ∉ site.version.files.keys) ∨
    ∃ file info ids after, site.sst.find? id = some file ∧ (entryFormat shape).create file = .ok info ∧
      VersionSet.Applied pins site.versionSet ⟨removed, [tableMeta id info]⟩ ids after ∧
      publish shape pins site id removed = .ok (ids, { site with versionSet := after }) := by
  rw [publish]
  split
  · rename_i missing
    exact .inl ⟨_, rfl, fun file info found => by rw [missing] at found; cases found⟩
  · rename_i file found
    split
    · rename_i error rejected
      refine .inl ⟨_, rfl, ?_⟩
      intro other info same accepted
      rw [found] at same
      cases same
      rw [rejected] at accepted
      cases accepted
    · rename_i info accepted
      split
      · rename_i error refused
        obtain ⟨stale, gone, listed, missing⟩ := VersionSet.apply_error_iff.mp refused
        exact .inr (.inl ⟨by rw [stale], gone, listed, SortedMap.find?_eq_none_iff.mp missing⟩)
      · rename_i ids after applied
        exact .inr (.inr ⟨file, info, ids, after, found, accepted, VersionSet.apply_applied applied, rfl⟩)

theorem begin_moves (site : Site) (thread : Nat) (job : Job) :
    Moves shape site (.start thread job) (site.begin shape thread job) := by
  have picking : Moves shape site (.start thread job) (match job.pick site.version with
      | none => site.enter thread (.finished (.ok none))
      | some candidate => site.enter thread (.picked candidate)) := by
    cases chosen : job.pick site.version with
    | none => exact .returns chosen
    | some candidate => exact .picks chosen
  cases job with
  | flush memtable =>
    simp only [begin, entryFormat_complete]
    split
    · exact .returns rfl
    · rename_i filled
      exact .flushes filled
  | doCompactWork policy => exact picking
  | compactNow => exact picking

theorem resume_moves (pins : Nat → Nat) (site : Site) (thread : Nat) :
    Moves shape site (.resume thread pins) (site.resume shape pins thread) := by
  rw [resume]
  cases stands : site.threads thread with
  | idle => exact .stays
  | finished answer => exact .stays
  | picked candidate => exact .mints stands
  | opening task waiting opened =>
    cases waiting with
    | nil => exact .writes stands
    | cons id waiting =>
      dsimp only
      split
      · rename_i missing
        exact .misses stands fun file info found => by rw [missing] at found; cases found
      · rename_i file found
        split
        · rename_i error rejected
          refine .misses stands ?_
          intro other info same accepted
          rw [found] at same
          cases same
          rw [rejected] at accepted
          cases accepted
        · rename_i info accepted
          exact .opens stands found accepted
  | written task opened =>
    dsimp only
    rcases publish_cases shape pins site task.outputId task.inputs with
      ⟨error, result, unreadable⟩ | ⟨result, stale⟩ | ⟨file, info, ids, after, found, accepted, applied, result⟩
    · rw [result]
      exact .fails (by rw [stands]; rfl) (by simp [stands]) unreadable
    · rw [result]
      exact .loses stands stale
    · rw [result]
      exact .installs stands found accepted applied
  | flushed id =>
    dsimp only
    rcases publish_cases shape pins site id [] with
      ⟨error, result, unreadable⟩ | ⟨_, _, none, _⟩ | ⟨file, info, ids, after, found, accepted, applied, result⟩
    · rw [result]
      exact .fails (by rw [stands]; rfl) (by simp [stands]) unreadable
    · cases none
    · rw [result]
      simp only [found, Option.map_some, Option.getD_some]
      exact .installsFlushed stands found accepted applied
  | reclaiming ids answer =>
    cases ids with
    | nil => exact .ends stands
    | cons id later => exact .unlinks stands

theorem step_moves (site : Site) (move : Move) : Moves shape site move (site.step shape move) := by
  cases move with
  | start thread job =>
    rw [step]
    split
    · exact begin_moves shape site thread job
    · exact .stays
  | resume thread pins => exact resume_moves shape pins site thread

/-- Some installed compaction has taken the table as an input. -/
def Consumed (site : Site) (id : SSTableId) : Prop := ∃ ids ∈ site.consumed, id ∈ ids

/-- A complete table file with its entries in order. -/
def Sorted (file : EntryFile) : Prop := ∃ estimatedKeys entries, file = .whole estimatedKeys entries ∧ Assoc.Ascending entries

/-- What holds of a call at its phase: nobody else knows its output, and its
opened inputs are the tables under their ids as long as these have files. -/
structure Fits (site : Site) (phase : Phase) : Prop where
  output : ∀ id, phase.output = some id → id < site.nextSstSeq ∧ id ∉ site.version.files.keys ∧ ¬ site.Consumed id
  inputs : ∀ table ∈ phase.inputs, (table.id ∈ site.sst.keys ∨ site.Consumed table.id) ∧
    (∀ file, site.sst.find? table.id = some file → file = table.file) ∧ Sorted table.file
  doomed : ∀ id ∈ phase.doomed, site.Consumed id
  opening : ∀ task waiting opened, phase = .opening task waiting opened →
    task.outputId ∉ site.sst.keys ∧ opened.map OpenTable.id ++ waiting = task.inputs
  written : ∀ task opened, phase = .written task opened →
    opened.map OpenTable.id = task.inputs ∧ site.sst.find? task.outputId = some (merged shape task opened)
  flushed : ∀ id, phase = .flushed id → id ∈ site.sst.keys

/-- The invariant of concurrent calls. -/
structure Consistent (site : Site) : Prop where
  below : ∀ id ∈ site.sst.keys, id < site.nextSstSeq
  tables : ∀ id file, site.sst.find? id = some file → Sorted file
  live : ∀ id ∈ site.version.files.keys, id ∈ site.sst.keys
  retired : ∀ id, site.Consumed id → id ∉ site.version.files.keys ∧ id < site.nextSstSeq
  disjoint : site.consumed.Pairwise List.Disjoint
  pending : ∀ id ∈ site.versionSet.pendingObsoleteIds.keys, site.Consumed id
  phases : ∀ thread, Fits shape site (site.threads thread)
  apart : ∀ thread other id, (site.threads thread).output = some id → (site.threads other).output = some id → thread = other

section

variable {shape} {site after : Site} {phase : Phase}

/-- A phase that has no part in what is shared. -/
theorem fits_plain (output : phase.output = none) (inputs : phase.inputs = []) (doomed : phase.doomed = []) :
    Fits shape site phase where
  output := by simp [output]
  inputs := by simp [inputs]
  doomed := by simp [doomed]
  opening := by rintro task waiting opened rfl; cases output
  written := by rintro task opened rfl; cases output
  flushed := by rintro id rfl; cases output

/-- What other calls do to a phase: ids only grow, and a file that the call knows
stays as it is or goes after its table was consumed. -/
theorem Fits.frame (fits : Fits shape site phase) (next : site.nextSstSeq ≤ after.nextSstSeq)
    (own : ∀ id, phase.output = some id → id ∉ after.version.files.keys ∧ ¬ after.Consumed id)
    (grown : ∀ id, site.Consumed id → after.Consumed id)
    (files : ∀ id, id ∈ site.sst.keys ∨ site.Consumed id ∨ phase.output = some id →
      after.sst.find? id = site.sst.find? id ∨ (after.sst.find? id = none ∧ after.Consumed id)) :
    Fits shape after phase where
  output := fun id mine => ⟨lt_of_lt_of_le (fits.output id mine).1 next, own id mine⟩
  inputs := by
    intro table member
    obtain ⟨place, same, sorted⟩ := fits.inputs table member
    have known : table.id ∈ site.sst.keys ∨ site.Consumed table.id ∨ phase.output = some table.id := by
      rcases place with stored | consumed
      · exact .inl stored
      · exact .inr (.inl consumed)
    rcases files table.id known with equal | ⟨gone, consumed⟩
    · refine ⟨?_, fun file found => same file (equal ▸ found), sorted⟩
      rcases place with stored | consumed
      · left
        rw [SortedMap.mem_keys_iff] at stored ⊢
        rwa [equal]
      · exact .inr (grown _ consumed)
    · refine ⟨.inr consumed, ?_, sorted⟩
      intro file found
      rw [gone] at found
      cases found
  doomed := fun id member => grown id (fits.doomed id member)
  opening := by
    rintro task waiting opened rfl
    obtain ⟨unwritten, order⟩ := fits.opening task waiting opened rfl
    refine ⟨SortedMap.find?_eq_none_iff.mp ?_, order⟩
    rcases files task.outputId (.inr (.inr rfl)) with equal | ⟨gone, _⟩
    · rw [equal]
      exact SortedMap.find?_eq_none_iff.mpr unwritten
    · exact gone
  written := by
    rintro task opened rfl
    obtain ⟨order, stored⟩ := fits.written task opened rfl
    rcases files task.outputId (.inr (.inr rfl)) with equal | ⟨_, consumed⟩
    · exact ⟨order, equal ▸ stored⟩
    · exact absurd consumed (own task.outputId rfl).2
  flushed := by
    rintro id rfl
    have stored := fits.flushed id rfl
    rcases files id (.inr (.inr rfl)) with equal | ⟨_, consumed⟩
    · rw [SortedMap.mem_keys_iff] at stored ⊢
      rwa [equal]
    · exact absurd consumed (own id rfl).2

/-- The phases after a thread has entered a new one. -/
theorem phases_enter (site : Site) {thread : Nat} (same : after.threads = site.threads) (entered : Fits shape after phase)
    (others : ∀ other, other ≠ thread → Fits shape after (site.threads other)) (probe : Nat) :
    Fits shape (after.enter thread phase) ((after.enter thread phase).threads probe) := by
  have moved : ∀ other, Fits shape after other → Fits shape (after.enter thread phase) other := by
    intro other fits
    exact ⟨fits.output, fits.inputs, fits.doomed, fits.opening, fits.written, fits.flushed⟩
  by_cases here : probe = thread
  · subst here
    rw [enter_thread]
    exact moved phase entered
  · rw [enter_other _ _ here, same]
    exact moved _ (others probe here)

/-- Outputs stay apart when the entered phase has the output of the one before, or
one that nobody has. -/
theorem apart_enter (site : Site) {thread : Nat} (same : after.threads = site.threads)
    (apart : ∀ thread other id, (site.threads thread).output = some id → (site.threads other).output = some id → thread = other)
    (own : ∀ id, phase.output = some id →
      (site.threads thread).output = some id ∨ ∀ other, (site.threads other).output ≠ some id) :
    ∀ probe other id, ((after.enter thread phase).threads probe).output = some id →
      ((after.enter thread phase).threads other).output = some id → probe = other := by
  intro probe other id first second
  by_cases here : probe = thread <;> by_cases there : other = thread
  · rw [here, there]
  · subst here
    rw [enter_thread] at first
    rw [enter_other _ _ there, same] at second
    rcases own id first with before | fresh
    · exact absurd (apart other probe id second before) there
    · exact absurd second (fresh other)
  · subst there
    rw [enter_thread] at second
    rw [enter_other _ _ here, same] at first
    rcases own id second with before | fresh
    · exact absurd (apart probe other id first before) here
    · exact absurd first (fresh probe)
  · rw [enter_other _ _ here, same] at first
    rw [enter_other _ _ there, same] at second
    exact apart probe other id first second

/-- A thread enters a phase that shares no output and nothing else changes. -/
theorem Consistent.enter (consistent : Consistent shape site) {thread : Nat} (entered : Fits shape site phase)
    (own : ∀ id, phase.output = some id → (site.threads thread).output = some id) :
    Consistent shape (site.enter thread phase) where
  below := consistent.below
  tables := consistent.tables
  live := consistent.live
  retired := consistent.retired
  disjoint := consistent.disjoint
  pending := consistent.pending
  phases := phases_enter site rfl entered fun other _ => consistent.phases other
  apart := apart_enter site rfl consistent.apart fun id mine => .inl (own id mine)

/-- Nothing has the id that is given out next. -/
theorem Consistent.unminted (consistent : Consistent shape site) :
    site.nextSstSeq ∉ site.version.files.keys ∧ ¬site.Consumed site.nextSstSeq ∧
      ∀ thread, (site.threads thread).output ≠ some site.nextSstSeq := by
  refine ⟨?_, ?_, ?_⟩
  · exact fun listed => lt_irrefl _ (consistent.below _ (consistent.live _ listed))
  · exact fun consumed => lt_irrefl _ (consistent.retired _ consumed).2
  · exact fun thread theirs => lt_irrefl _ ((consistent.phases thread).output _ theirs).1

/-- A file under a new id. -/
theorem Consistent.flush (consistent : Consistent shape site) (thread : Nat) {file : EntryFile} (sorted : Sorted file) :
    Consistent shape ({ site with
      sst := site.sst.insert site.nextSstSeq file
      nextSstSeq := site.nextSstSeq + 1 }.enter thread (.flushed site.nextSstSeq)) where
  below := by
    intro id stored
    rcases SortedMap.mem_keys_insert.mp stored with new | old
    · exact new ▸ Nat.lt_succ_self _
    · exact Nat.lt_succ_of_lt (consistent.below id old)
  tables := by
    intro id other found
    change (site.sst.insert site.nextSstSeq file).find? id = some other at found
    rw [SortedMap.find?_insert] at found
    split at found
    · cases found
      exact sorted
    · exact consistent.tables id other found
  live := fun id listed => SortedMap.mem_keys_insert.mpr (.inr (consistent.live id listed))
  retired := fun id consumed => ⟨(consistent.retired id consumed).1, Nat.lt_succ_of_lt (consistent.retired id consumed).2⟩
  disjoint := consistent.disjoint
  pending := consistent.pending
  phases := by
    refine phases_enter site rfl ?_ ?_
    · refine ⟨?_, by simp [Phase.inputs], by simp [Phase.doomed], by simp, by simp, ?_⟩
      · intro id mine
        cases mine
        exact ⟨Nat.lt_succ_self _, consistent.unminted.1, consistent.unminted.2.1⟩
      · intro id mine
        cases mine
        exact SortedMap.mem_keys_insert.mpr (.inl rfl)
    · intro other _
      have fits := consistent.phases other
      refine fits.frame (Nat.le_succ _) (fun id mine => (fits.output id mine).2) (fun _ consumed => consumed) ?_
      intro id known
      have less : id < site.nextSstSeq := by
        rcases known with stored | consumed | mine
        · exact consistent.below id stored
        · exact (consistent.retired id consumed).2
        · exact (fits.output id mine).1
      left
      change (site.sst.insert site.nextSstSeq file).find? id = _
      rw [SortedMap.find?_insert, if_neg (ne_of_lt less)]
  apart := by
    refine apart_enter site rfl consistent.apart ?_
    intro id mine
    cases mine
    exact .inr consistent.unminted.2.2

theorem Consistent.mint (consistent : Consistent shape site) (thread : Nat) (candidate : CompactionCandidate) :
    Consistent shape ({ site with nextSstSeq := site.nextSstSeq + 1 }.enter thread
      (.opening ⟨candidate.inputs, site.nextSstSeq, candidate.canDropTombstone⟩ candidate.inputs [])) where
  below := fun id stored => Nat.lt_succ_of_lt (consistent.below id stored)
  tables := consistent.tables
  live := consistent.live
  retired := fun id consumed => ⟨(consistent.retired id consumed).1, Nat.lt_succ_of_lt (consistent.retired id consumed).2⟩
  disjoint := consistent.disjoint
  pending := consistent.pending
  phases := by
    refine phases_enter site rfl ?_ ?_
    · refine ⟨?_, by simp [Phase.inputs], by simp [Phase.doomed], ?_, by simp, by simp⟩
      · intro id mine
        cases mine
        exact ⟨Nat.lt_succ_self _, consistent.unminted.1, consistent.unminted.2.1⟩
      · intro task waiting opened same
        cases same
        exact ⟨fun stored => lt_irrefl _ (consistent.below _ stored), by simp⟩
    · intro other _
      have fits := consistent.phases other
      exact fits.frame (Nat.le_succ _) (fun id mine => (fits.output id mine).2) (fun _ consumed => consumed)
        fun _ _ => .inl rfl
  apart := by
    refine apart_enter site rfl consistent.apart ?_
    intro id mine
    cases mine
    exact .inr consistent.unminted.2.2

theorem Consistent.open (consistent : Consistent shape site) {thread : Nat} {task : CompactionTask} {id : SSTableId}
    {waiting : List SSTableId} {opened : List OpenTable} {file : EntryFile} (info : TableInfo)
    (stands : site.threads thread = .opening task (id :: waiting) opened) (found : site.sst.find? id = some file) :
    Consistent shape (site.enter thread (.opening task waiting (opened ++ [⟨id, info, file⟩]))) := by
  have fits := consistent.phases thread
  rw [stands] at fits
  obtain ⟨unwritten, order⟩ := fits.opening task (id :: waiting) opened rfl
  refine consistent.enter ⟨fits.output, ?_, by simp [Phase.doomed], ?_, by simp, by simp⟩ ?_
  · intro table member
    rcases List.mem_append.mp member with earlier | here
    · exact fits.inputs table earlier
    · rw [List.mem_singleton.mp here]
      refine ⟨.inl (SortedMap.mem_keys_iff.mpr ⟨file, found⟩), ?_, consistent.tables id file found⟩
      intro other same
      rw [found] at same
      cases same
      rfl
  · intro other left loaded same
    cases same
    refine ⟨unwritten, ?_⟩
    rw [← order]
    simp
  · intro output mine
    rw [stands]
    exact mine

/-- What the merge reads of its tables. -/
theorem merged_eq (task : CompactionTask) (opened : List OpenTable) :
    merged shape task opened = .whole (opened.map fun table => table.info.entryCount).sum
      (compactedEntries (opened.map fun table => ⟨shape.delivered table.file.entries, none⟩) task.canDropTombstone) := by
  simp only [merged, entryFormat_complete, entryFormat_scan_entries]

theorem sorted_merged (task : CompactionTask) {opened : List OpenTable} (sorted : ∀ table ∈ opened, Sorted table.file) :
    Sorted (merged shape task opened) := by
  refine ⟨_, _, merged_eq task opened, List.Pairwise.filter _ (merge_of_ascending ?_).ascending⟩
  intro table member
  obtain ⟨estimatedKeys, entries, whole, ascending⟩ := sorted table member
  rw [whole]
  exact ascending.sublist (shape.delivered_sublist entries)

/-- The output of a call gets its file. -/
theorem Consistent.write (consistent : Consistent shape site) {thread : Nat} {task : CompactionTask}
    {opened : List OpenTable} (stands : site.threads thread = .opening task [] opened) :
    Consistent shape ({ site with sst := site.sst.insert task.outputId (merged shape task opened) }.enter thread
      (.written task opened)) := by
  have fits := consistent.phases thread
  rw [stands] at fits
  obtain ⟨unwritten, order⟩ := fits.opening task [] opened rfl
  obtain ⟨less, unlisted, unused⟩ := fits.output task.outputId rfl
  have others : ∀ id, id ≠ task.outputId →
      (site.sst.insert task.outputId (merged shape task opened)).find? id = site.sst.find? id := by
    intro id different
    rw [SortedMap.find?_insert, if_neg different]
  have known : ∀ id, id ∈ site.sst.keys ∨ site.Consumed id → id ≠ task.outputId := by
    rintro id (stored | consumed) rfl
    · exact unwritten stored
    · exact unused consumed
  exact {
    below := by
      intro id stored
      rcases SortedMap.mem_keys_insert.mp stored with new | old
      · exact new ▸ less
      · exact consistent.below id old
    tables := by
      intro id file found
      by_cases new : id = task.outputId
      · change (site.sst.insert task.outputId (merged shape task opened)).find? id = some file at found
        rw [SortedMap.find?_insert, if_pos new] at found
        cases found
        exact sorted_merged task fun table member => (fits.inputs table member).2.2
      · exact consistent.tables id file ((others id new).symm.trans found)
    live := fun id listed => SortedMap.mem_keys_insert.mpr (.inr (consistent.live id listed))
    retired := consistent.retired
    disjoint := consistent.disjoint
    pending := consistent.pending
    phases := by
      refine phases_enter site rfl ?_ ?_
      · refine ⟨fits.output, ?_, by simp [Phase.doomed], by simp, ?_, by simp⟩
        · intro table member
          obtain ⟨place, same, sorted⟩ := fits.inputs table member
          refine ⟨?_, ?_, sorted⟩
          · exact place.imp (fun stored => SortedMap.mem_keys_insert.mpr (.inr stored)) fun consumed => consumed
          · exact fun file found => same file ((others table.id (known _ place)).symm.trans found)
        · intro other loaded same
          cases same
          refine ⟨by simpa using order, ?_⟩
          change (site.sst.insert task.outputId (merged shape task opened)).find? task.outputId = _
          rw [SortedMap.find?_insert, if_pos rfl]
      · intro other different
        have theirs := consistent.phases other
        refine theirs.frame le_rfl (fun id mine => (theirs.output id mine).2) (fun _ consumed => consumed) ?_
        intro id place
        refine .inl (others id ?_)
        rcases place with stored | consumed | output
        · exact known id (.inl stored)
        · exact known id (.inr consumed)
        · rintro rfl
          exact different (consistent.apart other thread task.outputId output (by rw [stands]; rfl))
    apart := by
      refine apart_enter site rfl consistent.apart ?_
      intro id mine
      left
      rw [stands]
      exact mine }

/-- A consumed table loses its file. -/
theorem Consistent.unlink (consistent : Consistent shape site) {thread : Nat} {id : SSTableId} {later : List SSTableId}
    {answer : Option SSTableId} (stands : site.threads thread = .reclaiming (id :: later) answer) :
    Consistent shape ({ site with sst := site.sst.erase id }.enter thread (.reclaiming later answer)) := by
  have fits := consistent.phases thread
  rw [stands] at fits
  have consumed : site.Consumed id := fits.doomed id (by simp [Phase.doomed])
  exact {
    below := fun other stored => consistent.below other (SortedMap.mem_keys_erase.mp stored).2
    tables := by
      intro other file found
      change (site.sst.erase id).find? other = some file at found
      rw [SortedMap.find?_erase] at found
      split at found
      · cases found
      · exact consistent.tables other file found
    live := by
      intro other listed
      refine SortedMap.mem_keys_erase.mpr ⟨?_, consistent.live other listed⟩
      rintro rfl
      exact (consistent.retired _ consumed).1 listed
    retired := consistent.retired
    disjoint := consistent.disjoint
    pending := consistent.pending
    phases := by
      refine phases_enter site rfl ?_ ?_
      · refine ⟨by simp [Phase.output], by simp [Phase.inputs], ?_, by simp, by simp, by simp⟩
        exact fun other member => fits.doomed other (by simpa [Phase.doomed] using Or.inr member)
      · intro other _
        have theirs := consistent.phases other
        refine theirs.frame le_rfl (fun id mine => (theirs.output id mine).2) (fun _ consumed => consumed) ?_
        intro probe _
        change (site.sst.erase id).find? probe = _ ∨ (site.sst.erase id).find? probe = none ∧ _
        rw [SortedMap.find?_erase]
        by_cases same : probe = id
        · subst same
          exact .inr ⟨if_pos rfl, consumed⟩
        · exact .inl (if_neg same)
    apart := by
      refine apart_enter site rfl consistent.apart ?_
      intro id mine
      cases mine }

/-- An accepted edit that adds the output of a call. -/
theorem Consistent.publish (consistent : Consistent shape site) {thread : Nat} {pins : Nat → Nat} {id : SSTableId}
    {removed ids : List SSTableId} {info : TableInfo} {versions : VersionSet} {installed : List Entry}
    {consumed : List (List SSTableId)} (answer : Option SSTableId) (mine : (site.threads thread).output = some id)
    (stored : id ∈ site.sst.keys)
    (applied : VersionSet.Applied pins site.versionSet ⟨removed, [tableMeta id info]⟩ ids versions)
    (grows : ∀ probe, (∃ ids ∈ consumed, probe ∈ ids) ↔ probe ∈ removed ∨ site.Consumed probe)
    (disjoint : consumed.Pairwise List.Disjoint) :
    Consistent shape ({ site with versionSet := versions, installed := installed, consumed := consumed }.enter thread
      (.reclaiming ids answer)) := by
  obtain ⟨less, unlisted, unused⟩ := (consistent.phases thread).output id mine
  have live : ∀ probe ∈ removed, probe ∈ site.version.files.keys := by
    intro probe member
    exact SortedMap.mem_keys_iff.mpr (Option.isSome_iff_exists.mp (applied.live probe member))
  have listed : ∀ probe ∈ versions.currentVersion.files.keys,
      probe = id ∨ probe ∈ site.version.files.keys ∧ probe ∉ removed := by
    intro probe member
    rw [applied.current] at member
    rcases VersionSet.mem_edited.mp member with kept | ⟨row, added, same⟩
    · exact .inr kept
    · rw [List.mem_singleton.mp added] at same
      exact .inl same.symm
  have retired : ∀ probe, probe ∈ removed ∨ site.Consumed probe → probe ∉ versions.currentVersion.files.keys := by
    rintro probe gone member
    rcases listed probe member with rfl | ⟨before, kept⟩
    · rcases gone with taken | earlier
      · exact unlisted (live _ taken)
      · exact unused earlier
    · rcases gone with taken | earlier
      · exact kept taken
      · exact (consistent.retired probe earlier).1 before
  have waiting : ∀ probe, probe ∈ removed ∨ probe ∈ site.versionSet.pendingObsoleteIds.keys →
      ∃ ids ∈ consumed, probe ∈ ids := by
    rintro probe (taken | earlier)
    · exact (grows probe).mpr (.inl taken)
    · exact (grows probe).mpr (.inr (consistent.pending probe earlier))
  exact {
    below := consistent.below
    tables := consistent.tables
    live := by
      intro probe member
      rcases listed probe member with rfl | ⟨before, _⟩
      · exact stored
      · exact consistent.live probe before
    retired := by
      intro probe gone
      have source := (grows probe).mp gone
      refine ⟨retired probe source, ?_⟩
      rcases source with taken | earlier
      · exact consistent.below probe (consistent.live probe (live probe taken))
      · exact (consistent.retired probe earlier).2
    disjoint := disjoint
    pending := fun probe waits => waiting probe ((applied.pending probe).mp waits).1
    phases := by
      refine phases_enter site rfl ?_ ?_
      · refine ⟨by simp [Phase.output], by simp [Phase.inputs], ?_, by simp, by simp, by simp⟩
        exact fun probe member => waiting probe ((applied.unused probe).mp member).1
      · intro other different
        have theirs := consistent.phases other
        refine theirs.frame le_rfl ?_ (fun probe earlier => (grows probe).mpr (.inr earlier)) fun _ _ => .inl rfl
        intro probe output
        obtain ⟨_, outside, untaken⟩ := theirs.output probe output
        have distinct : probe ≠ id := by
          rintro rfl
          exact different (consistent.apart other thread _ output mine)
        constructor
        · intro member
          rcases listed probe member with same | ⟨before, _⟩
          · exact distinct same
          · exact outside before
        · intro gone
          rcases (grows probe).mp gone with taken | earlier
          · exact outside (live probe taken)
          · exact untaken earlier
    apart := by
      refine apart_enter site rfl consistent.apart ?_
      intro probe output
      cases output }

theorem Consistent.step (consistent : Consistent shape site) (move : Move) : Consistent shape (site.step shape move) := by
  have moves := step_moves shape site move
  generalize site.step shape move = after at moves
  cases moves with
  | stays => exact consistent
  | returns done => exact consistent.enter (fits_plain rfl rfl rfl) (by simp [Phase.output])
  | @flushes thread memtable filled => exact consistent.flush thread ⟨_, _, rfl, memtable.entries.ascending⟩
  | picks chosen => exact consistent.enter (fits_plain rfl rfl rfl) (by simp [Phase.output])
  | mints stands => exact consistent.mint _ _
  | misses stands unreadable => exact consistent.enter (fits_plain rfl rfl rfl) (by simp [Phase.output])
  | opens stands found accepted => exact consistent.open _ stands found
  | writes stands => exact consistent.write stands
  | fails stands unread unreadable => exact consistent.enter (fits_plain rfl rfl rfl) (by simp [Phase.output])
  | loses stands stale => exact consistent.enter (fits_plain rfl rfl rfl) (by simp [Phase.output])
  | @installs thread pins task opened file info ids versions stands found accepted applied =>
    refine consistent.publish _ (by rw [stands]; rfl) (SortedMap.mem_keys_iff.mpr ⟨file, found⟩) applied ?_ ?_
    · intro probe
      simp [Consumed]
    · refine List.pairwise_cons.mpr ⟨?_, consistent.disjoint⟩
      intro earlier member probe taken consumed
      have live := SortedMap.mem_keys_iff.mpr (Option.isSome_iff_exists.mp (applied.live probe taken))
      exact (consistent.retired probe ⟨earlier, member, consumed⟩).1 live
  | @installsFlushed thread pins id file info ids versions stands found accepted applied =>
    refine consistent.publish _ (by rw [stands]; rfl) (SortedMap.mem_keys_iff.mpr ⟨file, found⟩) applied ?_
      consistent.disjoint
    intro probe
    simp [Consumed]
  | unlinks stands => exact consistent.unlink stands
  | ends stands => exact consistent.enter (fits_plain rfl rfl rfl) (by simp [Phase.output])

theorem start_consistent {sst : SortedMap SSTableId EntryFile}
    (tables : ∀ id file, sst.find? id = some file → Sorted file) : Consistent shape (start shape sst) where
  below := fun id stored => Nat.lt_succ_of_le (le_highestOf stored)
  tables := tables
  live := by
    intro id listed
    obtain ⟨row, found⟩ := SortedMap.mem_keys_iff.mp listed
    change (sst.mapValues _).find? id = some row at found
    rw [SortedMap.find?_mapValues] at found
    obtain ⟨file, stored, _⟩ := Option.map_eq_some_iff.mp found
    exact SortedMap.mem_keys_iff.mpr ⟨file, stored⟩
  retired := by
    rintro id ⟨ids, none, _⟩
    cases none
  disjoint := List.Pairwise.nil
  pending := by
    intro id none
    cases none
  phases := fun _ => fits_plain rfl rfl rfl
  apart := by
    intro thread other id mine
    cases mine

/-- What holds at the start and is kept by every move that meets a condition holds
after every run of such moves. -/
theorem run_invariant (invariant : Site → Prop) {condition : Site → Move → Prop} (holds : invariant site)
    (kept : ∀ site move, invariant site → condition site move → invariant (site.step shape move)) {moves : List Move}
    (along : Along shape condition site moves) : invariant (site.run shape moves) := by
  induction moves generalizing site with
  | nil => exact holds
  | cons move later ih => exact ih (kept site move holds along.1) along.2

end

end Site

end Engine

end Enigma
