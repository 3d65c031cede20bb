import Enigma.Engine.PartialReplay
import Enigma.Engine.RecoveryCompaction

/-! Recovery when only reads fail. A failed read of a record looks to the replay
loop like the end of the log: the rest of the segment is skipped, and then it is
unlinked. A record that is too large to be read back ends its segment as well, and
the compaction behind the flush may drop what was replayed. Nothing is lost exactly
when none of this happens. -/

namespace Enigma

/-- The script for the calls after some number of calls. -/
def Script.drop (count : Nat) (script : Script Call) : Script Call := fun index => script (index + count)

@[simp] theorem Script.tail_drop (count : Nat) (script : Script Call) :
    (script.drop count).tail = script.drop (count + 1) := by
  funext index
  simp only [Script.tail, Script.drop, Nat.add_assoc, Nat.add_comm 1]

/-- The call reads a file. -/
def Call.IsRead : Call → Prop
  | .read | .readBlock _ _ => True
  | _ => False

namespace Engine

open Prog

/-- Reads may return an error. Everything else goes well. -/
def ReadFaults (kind : Call) (fate : Fate) : Prop := fate = .done ∨ kind.IsRead ∧ fate = .failed

theorem readFaults_alive : ¬ Dies ReadFaults := by
  rintro ⟨kind, same | ⟨_, same⟩⟩ <;> cases same

theorem readFaults_removes : ¬ ReadFaults .fsRemove .failed := by
  rintro (same | ⟨reads, _⟩)
  · cases same
  · exact reads

theorem readFaults_opens : ¬ ReadFaults .open .failed := by
  rintro (same | ⟨reads, _⟩)
  · cases same
  · exact reads

/-- The numbers of the calls that read records when no such read fails: in each
segment the open comes first, then two reads for each record, and the read that
meets the end. -/
def recordReads : Nat → List (Nat × List WalRecord) → List Nat
  | _, [] => []
  | start, (_, records) :: later =>
    List.range' (start + 1) (2 * records.length) ++ recordReads (start + 2 * records.length + 2) later

theorem heardSegment_all {script : Script Call} {start : Nat} {records : List WalRecord}
    (done : ∀ number ∈ List.range' start (2 * records.length), script number .read = .done) :
    heardSegment 1 (script.drop start) records = (records, script.drop (start + 2 * records.length + 1)) := by
  induction records generalizing start with
  | nil => simp [heardSegment, afterReads]
  | cons record later ih =>
    have bounds : 2 * (record :: later).length = 2 * later.length + 2 := by simp [Nat.mul_add]
    rw [bounds] at done
    have first : (script.drop start) 0 .read = .done := by
      simpa [Script.drop] using done start (List.mem_range'_1.mpr (by omega))
    have second : (script.drop start) 1 .read = .done := by
      simpa [Script.drop, Nat.add_comm] using done (start + 1) (List.mem_range'_1.mpr (by omega))
    have rest : heardSegment 1 (script.drop (start + 2)) later = _ := ih fun number member => done number (by
      rw [List.mem_range'_1] at member ⊢
      omega)
    simp only [heardSegment, first, second, ↓reduceIte, Script.tail_drop, rest, bounds]
    congr 2
    omega

theorem heardSegment_short {script : Script Call} {start lastReads : Nat} {records : List WalRecord}
    (missed : ¬ ∀ number ∈ List.range' start (2 * records.length), script number .read = .done) :
    (heardSegment lastReads (script.drop start) records).1.length < records.length := by
  induction records generalizing start with
  | nil => simp at missed
  | cons record later ih =>
    have positive : 0 < (record :: later).length := by simp
    rw [heardSegment]
    split
    · rename_i first
      split
      · rename_i second
        simp only [Script.drop, Nat.zero_add] at first second
        have shorter : (heardSegment lastReads (script.drop (start + 2)) later).1.length < later.length := ih (by
          intro done
          refine missed fun number member => ?_
          rw [List.mem_range'_1] at member
          simp only [List.length_cons] at member
          rcases Nat.lt_or_ge number (start + 2) with near | far
          · have two : number = start ∨ number = 1 + start := by omega
            rcases two with same | same <;> rw [same]
            · exact first
            · exact second
          · exact done number (by rw [List.mem_range'_1]; omega))
        simpa using shorter
      · exact positive
    · exact positive

/-- Records that fit are all replayed exactly when none of their reads fails. -/
theorem heard_drop_eq_iff (script : Script Call) (start : Nat) {segments : List (Nat × List WalRecord)}
    (fits : ∀ segment ∈ segments, ∀ record ∈ segment.2, record.Fits) :
    heard (script.drop start) segments = segments.flatMap Prod.snd ↔
      ∀ number ∈ recordReads start segments, script number .read = .done := by
  induction segments generalizing start with
  | nil => simp [heard, hearing, recordReads]
  | cons segment later ih =>
    obtain ⟨id, records⟩ := segment
    have read : readBack records = ⟨records, 1⟩ :=
      readBack_of_fits fun record member => fits (id, records) (by simp) record member
    have others : ∀ segment ∈ later, ∀ record ∈ segment.2, record.Fits :=
      fun segment member => fits segment (by simp [member])
    have cut : heard (script.drop start) ((id, records) :: later) = (heardSegment 1 (script.drop (start + 1)) records).1 ++
        heard (heardSegment 1 (script.drop (start + 1)) records).2 later := by
      simp only [heard, hearing, read, Script.tail_drop]
    simp only [cut, recordReads, List.flatMap_cons, List.forall_mem_append]
    by_cases done : ∀ number ∈ List.range' (start + 1) (2 * records.length), script number .read = .done
    · have next : start + 1 + 2 * records.length + 1 = start + 2 * records.length + 2 := by omega
      rw [heardSegment_all done, next, List.append_cancel_left_eq, ih _ others]
      exact ⟨fun rest => ⟨done, rest⟩, fun both => both.2⟩
    · refine ⟨?_, fun both => absurd both.1 done⟩
      intro same
      have short : (heardSegment 1 (script.drop (start + 1)) records).1.length < records.length :=
        heardSegment_short done
      have rest := (heard_sublist (heardSegment 1 (script.drop (start + 1)) records).2 later).length_le
      rw [foundRecords_of_fits others] at rest
      have lengths := congrArg List.length same
      simp only [List.length_append] at lengths
      omega

/-- A replay that gets to every record has found that they fit. -/
theorem fits_of_heard {script : Script Call} {segments : List (Nat × List WalRecord)}
    (whole : heard script segments = segments.flatMap Prod.snd) :
    ∀ segment ∈ segments, ∀ record ∈ segment.2, record.Fits := by
  intro segment member record held
  have reached : record ∈ heard script segments := whole ▸ List.mem_flatMap.mpr ⟨segment, member, held⟩
  obtain ⟨origin, _, found⟩ := List.mem_flatMap.mp ((heard_sublist script segments).subset reached)
  exact readBack_fits origin.2 record found

section

variable {F : Type} {format : TableFormat F}

/-- A flush in recovery that ends in an error leaves the log alone. -/
theorem wp_flushRecovered_kept (world : World F) : wp ReadFaults (flushRecovered format)
    ⟨fun _ _ => True, fun _ after => after.disk.wal = world.disk.wal, fun _ => False⟩ world := by
  refine wp_getState_bind ?_
  split
  · have keeps : wp ReadFaults (flush format)
        ⟨fun _ _ => True, fun _ after => after.disk.wal = world.disk.wal, fun _ => Dies ReadFaults⟩ world :=
      wp_flush_refused format readFaults_removes rfl (fun _ _ same => same) fun _ same => same
    exact wp_mono keeps (fun _ _ _ => trivial) (fun _ _ same => same) (fun _ died => readFaults_alive died)
  · exact wp_pure trivial

theorem wp_recover_kept (world : World F) : wp ReadFaults (recover format)
    ⟨fun _ _ => True, fun _ after => after.disk.wal = world.disk.wal, fun _ => False⟩ world := by
  refine wp_getState_bind ?_
  dsimp only
  split
  · exact wp_pure trivial
  · have replays : Preserves ReadFaults (fun after : World F => after.disk.wal = world.disk.wal)
        (replaySegments (oldWalFiles world) 0) := preserves_replaySegments (fun _ _ same => same) _ 0
    refine wp_bind (wp_mono (replays world rfl) ?_ (fun _ _ same => same) (fun _ died => readFaults_alive died.1))
    intro highest replayed same
    refine wp_bind (wp_mono (wp_flushRecovered_kept replayed) ?_ (fun _ _ kept => kept.trans same) (fun _ died => died))
    intro _ flushed _
    refine wp_bind (wp_forEach (fun _ _ => True) trivial ?_ ?_)
    · exact fun _ _ => wp_bind (wp_of_run (fun script => onEngine_run _ script _) (wp_pure trivial))
    · intro segment rest after _
      exact wp_call trivial (fun failed => absurd failed readFaults_removes) (fun died => readFaults_alive ⟨_, died⟩)

/-- An `open` that returns an error leaves every segment as it was. -/
theorem wp_open_kept (format : TableFormat F) (config : Config) (disk : Disk F) :
    wp ReadFaults (Engine.open format config) ⟨fun _ _ => True, fun _ after => ∀ id records,
      disk.wal.find? id = some records → after.wal.find? id = some records, fun _ => False⟩ disk := by
  refine wp_getState_bind (wp_bind (wp_mapEach (fun _ _ => True) ?_ ?_))
  · intro id _
    have reads : Preserves ReadFaults (fun after => after = disk) (readTable format (fun disk => disk) id) :=
      preserves_readTable format _ id
    refine wp_bind (wp_mono (reads disk rfl) ?_ ?_ (fun _ died => readFaults_alive died.1))
    · exact fun _ _ same => wp_pure ⟨same, trivial⟩
    · intro _ after same id records found
      rwa [same]
  · intro metas _
    refine wp_call_bind ?_ (fun failed => absurd failed readFaults_opens) (fun died => readFaults_alive ⟨_, died⟩)
    refine wp_bind (wp_nested (wp_mono (wp_recover_kept _) ?_ ?_ (fun _ died => died)))
    · exact fun _ _ _ => wp_pure trivial
    · intro _ after same id records found
      rw [same, Disk.openWal_find?]
      have below := le_highestOf (SortedMap.mem_keys_iff.mpr ⟨records, found⟩)
      rw [if_neg (by omega)]
      exact found

/-- Opening a table takes four calls. -/
theorem readTable_returned {σ : Type} {disk : σ → Disk F} {id : SSTableId} {script rest : Script Call} {start : Nat}
    {state after : σ} {info : TableInfo}
    (run : (readTable format disk id).run (script.drop start) state = (.ok info, rest, after)) :
    rest = script.drop (start + 4) ∧ after = state ∧
      ∃ file, (disk state).sst.find? id = some file ∧ format.create file = .ok info := by
  obtain ⟨_, _, _, opens, found⟩ := bind_returned run
  obtain ⟨_, opened, same⟩ := call_returned opens
  rw [opened, same, bind_run_ok (getState_run _ _)] at found
  split at found
  · cases found
  · rename_i file present
    obtain ⟨_, _, _, sizes, sized⟩ := bind_returned found
    obtain ⟨_, taken, same⟩ := call_returned sizes
    rw [taken, same] at sized
    obtain ⟨_, _, _, footer, located⟩ := bind_returned sized
    obtain ⟨_, read, same⟩ := call_returned footer
    rw [read, same] at located
    obtain ⟨_, _, _, index, loaded⟩ := bind_returned located
    obtain ⟨_, last, same⟩ := call_returned index
    rw [last, same] at loaded
    split at loaded
    · cases loaded
    · rename_i accepted
      cases loaded
      exact ⟨by simp, rfl, file, present, accepted⟩

theorem metas_returned {ids : List SSTableId} {disk after : Disk F} {script rest : Script Call} {start : Nat}
    {metas : List SSTableMeta} (run : (mapEach ids fun id => do
      let info ← readTable format (fun disk => disk) id
      return tableMeta id info).run (script.drop start) disk = (.ok metas, rest, after)) :
    rest = script.drop (start + 4 * ids.length) ∧ after = disk ∧ List.Forall₂ (ReadFrom format disk) ids metas := by
  induction ids generalizing start metas with
  | nil =>
    cases run
    exact ⟨rfl, rfl, .nil⟩
  | cons id later ih =>
    obtain ⟨row, _, _, first, others⟩ := bind_returned run
    obtain ⟨info, _, _, reads, named⟩ := bind_returned first
    cases named
    obtain ⟨tail, same, file, present, accepted⟩ := readTable_returned reads
    rw [tail, same] at others
    obtain ⟨rows, _, _, continues, listed⟩ := bind_returned others
    cases listed
    obtain ⟨left, reached, each⟩ := ih continues
    refine ⟨?_, reached, .cons ⟨file, info, present, accepted, rfl⟩ each⟩
    rw [left, List.length_cons, Nat.mul_add, ← Nat.add_assoc, Nat.add_right_comm]

/-- The number of calls that `open` makes before it recovers. -/
def recoveryStart (disk : Disk F) : Nat := 4 * disk.sst.keys.length + 1

theorem open_returned {config : Config} {disk after : Disk F} {script rest : Script Call} {engine : Dazzle}
    (run : (Engine.open format config).run script disk = (.ok engine, rest, after)) :
    ∃ metas highest, List.Forall₂ (ReadFrom format disk) disk.sst.keys metas ∧
      (recover format).run (script.drop (recoveryStart disk)) (bootWorld config disk metas) =
        (.ok highest, rest, ⟨after, engine⟩) := by
  rw [Engine.open, bind_run_ok (getState_run _ _)] at run
  obtain ⟨metas, _, _, reads, known⟩ := bind_returned run
  have start : script = script.drop 0 := rfl
  rw [start] at reads
  obtain ⟨tail, same, each⟩ := metas_returned reads
  rw [tail, same] at known
  obtain ⟨_, _, _, creates, created⟩ := bind_returned known
  obtain ⟨_, next, opened⟩ := call_returned creates
  rw [next, opened, Script.tail_drop, Nat.zero_add] at created
  obtain ⟨result, _, _, nests, returned⟩ := bind_returned created
  cases returned
  obtain ⟨recovers, left⟩ := nested_returned nests
  subst left
  rw [Disk.openWal_sst] at recovers
  exact ⟨metas, result.1, each, recovers⟩

end

section

variable {F : Type} {format : TableFormat F}

theorem getInternal_congr {world other : World F} (memtable : world.engine.activeMemtable = other.engine.activeMemtable)
    (version : world.engine.version = other.engine.version) (tables : world.disk.sst = other.disk.sst) (key : Key) :
    getInternal format world key = getInternal format other key := by
  have lookup : lookupInternal format world.disk key other.engine.version.files.keys.reverse =
      lookupInternal format other.disk key other.engine.version.files.keys.reverse :=
    lookupInternal_congr (fun _ _ => by rw [tables]) key
  simp only [getInternal, memtable, version, lookup]

theorem getInternal_cleanUp {segments : List (Nat × List WalRecord)} {highest found : Nat} {script rest : Script Call}
    {world after : World F} (run : (cleanUp segments highest).run script world = (.ok found, rest, after)) (key : Key) :
    getInternal format after key = getInternal format world key := by
  have keeps : Preserves (fun _ _ => True) (fun after : World F => after.engine.activeMemtable =
      world.engine.activeMemtable ∧ after.engine.version = world.engine.version ∧ after.disk.sst = world.disk.sst)
      (cleanUp segments highest) := by
    refine .bind (.forEach fun _ => .call fun _ same => same) fun _ state same => ?_
    exact wp_bind (wp_of_run (fun script => onEngine_run _ script _) (wp_pure same))
  have allowed : Allowed (fun _ _ => True) script := fun _ _ => trivial
  obtain ⟨memtable, version, tables⟩ := wp_run (keeps world ⟨rfl, rfl, rfl⟩) allowed run
  exact getInternal_congr memtable version tables key

end

section

variable {shape : TableShape} {world after : World EntryFile} {script rest : Script Call}

/-- The directory once recovery has flushed the log to a table. -/
def flushedDisk (config : Config) (disk : Disk EntryFile) : Disk EntryFile :=
  disk.putTable (highestOf disk.sst.keys + 1)
    (.whole (recoveredMemtable config disk).count (recoveredMemtable config disk).entries.bindings)

/-- What the engine that `open` returns reads, when the whole log is replayed. -/
def openedLookup (shape : TableShape) (config : Config) (disk : Disk EntryFile) (key : Key) : Option InternalValue :=
  if 0 < (recoveredMemtable config disk).approximateSize then checkedLookup shape config.policy (flushedDisk config disk) key
  else ((recoveredMemtable config disk).get key).or ((diskLayers disk).lookup key)

theorem checkedLookup_congr {disk other : Disk EntryFile} (same : disk.sst = other.sst) (policy : CompactionPolicy)
    (key : Key) : checkedLookup shape policy disk key = checkedLookup shape policy other key := by
  obtain ⟨sst, _⟩ := disk
  obtain ⟨_, _⟩ := other
  subst same
  rfl

/-- A flush of the replayed log and the compaction check behind it. -/
theorem flushRecovered_lookup (stocked : Stocked world) (listed : Listed shape world)
    (sized : 0 < world.engine.activeMemtable.approximateSize) (filled : world.engine.activeMemtable.count ≠ 0)
    (run : (flushRecovered (entryFormat shape)).run .calm world = (.ok (), rest, after)) (key : Key) :
    getInternal (entryFormat shape) after key = .ok (checkedLookup shape world.engine.policy
      (world.disk.putTable world.engine.nextSstSeq
        (.whole world.engine.activeMemtable.count world.engine.activeMemtable.entries.bindings)) key) := by
  have accepted := entryFormat_create_whole shape world.engine.activeMemtable.entries.bindings filled
  rw [← flushedFile_eq] at accepted
  obtain ⟨versionSet, quiet, files, flushed⟩ := flushMemtable_run benign_calm stocked.quiet accepted
  obtain ⟨exit, compacted, checks, returns, reads⟩ :=
    doCompactWork_checked (stocked.flushed filled quiet files) (listed.flushed accepted files)
  have ends : compacted = after := by
    rw [flushRecovered, bind_run_ok (getState_run _ _), if_pos sized] at run
    have whole := (flush_run filled flushed).symm.trans run
    cases exit with
    | ok value =>
      have ended := (bind_run_ok (attempt_run_ok checks)).symm.trans whole
      cases ended
      rfl
    | err error =>
      have ended := (bind_run_ok (attempt_run_err checks)).symm.trans whole
      cases ended
      rfl
    | crash => exact absurd rfl returns
  have tables : (flushedWorld (entryFormat shape) world versionSet).disk.sst = (world.disk.putTable world.engine.nextSstSeq
      (.whole world.engine.activeMemtable.count world.engine.activeMemtable.entries.bindings)).sst := by
    rw [flushedWorld, Disk.dropWal_sst, Disk.openWal_sst, flushedFile_eq]
  rw [← ends, reads key, checkedLookup_congr tables]
  rfl

theorem replayed_recovered {config : Config} {disk : Disk EntryFile}
    (whole : heard script disk.wal.bindings = walRecords disk) :
    Replayed (recoveredMemtable config disk) (walRecords disk) := by
  have found : foundRecords disk.wal.bindings = walRecords disk := foundRecords_of_fits (fits_of_heard whole)
  rw [recoveredMemtable, found]
  exact replayed_new config.memtableSize (walRecords disk)

/-- The opened engine reads what the directory tells, if the log was replayed in
full and nothing failed behind the replay. -/
theorem open_lookup {config : Config} {disk directory : Disk EntryFile} {engine : Dazzle}
    (whole : heard (script.drop (recoveryStart disk)) disk.wal.bindings = walRecords disk)
    (calm : (hearing (script.drop (recoveryStart disk)) disk.wal.bindings).2 = .calm)
    (opens : (Engine.open (entryFormat shape) config).run script disk = (.ok engine, rest, directory)) (key : Key) :
    getInternal (entryFormat shape) ⟨directory, engine⟩ key = .ok (openedLookup shape config disk key) := by
  obtain ⟨metas, highest, read, recovers⟩ := open_returned opens
  have segments := oldWalFiles_boot config disk metas
  have found : foundRecords disk.wal.bindings = walRecords disk := foundRecords_of_fits (fits_of_heard whole)
  have memtable : (replayedWorld (bootWorld config disk metas) (walRecords disk)).engine.activeMemtable =
      recoveredMemtable config disk := by
    rw [recoveredMemtable, found]
    rfl
  have stocked : Stocked (replayedWorld (bootWorld config disk metas) (walRecords disk)) := { stocked_boot config read with }
  have listed : Listed shape (replayedWorld (bootWorld config disk metas) (walRecords disk)) := listed_boot config read
  have tables : (replayedWorld (bootWorld config disk metas) (walRecords disk)).disk.sst = disk.sst := Disk.openWal_sst _ _
  have kept : getInternal (entryFormat shape) (replayedWorld (bootWorld config disk metas) (walRecords disk)) key =
      .ok (((recoveredMemtable config disk).get key).or ((diskLayers disk).lookup key)) := by
    rw [getInternal_eq stocked, view, memtable, listed.layers, diskLayers, tables]
    rfl
  by_cases present : oldWalFiles (bootWorld config disk metas) = []
  · rw [recover_eq, if_pos present] at recovers
    cases recovers
    have none : walRecords disk = [] := by
      rw [walRecords, ← segments, present]
      rfl
    have unsized : ¬ 0 < (recoveredMemtable config disk).approximateSize := by
      rw [← memtable, none]
      exact Nat.lt_irrefl 0
    rw [openedLookup, if_neg unsized, ← kept, none]
    rfl
  · obtain ⟨seen, left, flushed, between, replays, flushes, cleans⟩ := recover_returned present recovers
    obtain ⟨tail, _⟩ := replaySegments_returned replays
    rw [segments, calm] at tail
    rw [segments, whole, tail] at flushes
    rw [getInternal_cleanUp cleans, openedLookup]
    split
    · rename_i sized
      rw [← memtable] at sized
      have replayed : Replayed (recoveredMemtable config disk) (walRecords disk) := replayed_recovered whole
      have filled := replayed.filled_of_sized (memtable ▸ sized)
      rw [← memtable] at filled
      rw [flushRecovered_lookup stocked listed sized filled flushes, memtable]
      exact congrArg Except.ok (checkedLookup_congr (by
        rw [flushedDisk, Disk.putTable_sst, Disk.putTable_sst, tables]
        rfl) _ key)
    · rename_i unsized
      rw [← memtable] at unsized
      rw [flushRecovered, bind_run_ok (getState_run _ _), if_neg unsized] at flushes
      cases flushes
      exact kept

/-- For each key among the records, the last one is what is read. -/
def Answers (shape : TableShape) (records : List WalRecord) (world : World EntryFile) : Prop :=
  ∀ key value, Assoc.last? (records.map WalRecord.entry) key = some value →
    getInternal (entryFormat shape) world key = .ok (some value)

/-- What `open` owes to the log it removes: every record is replayed, and the last
one of each key is what the opened engine reads. -/
structure Restored (shape : TableShape) (disk : Disk EntryFile) (script : Script Call) (opened : World EntryFile) :
    Prop where
  replayed : heard (script.drop (recoveryStart disk)) disk.wal.bindings = walRecords disk
  answered : Answers shape (walRecords disk) opened

/-- The compaction that the policy picks behind the flush of the log, if it comes to
one, leaves the last record of each key on top. -/
def SparesLog (shape : TableShape) (config : Config) (disk : Disk EntryFile) : Prop :=
  0 < (recoveredMemtable config disk).approximateSize →
    ∀ candidate ∈ config.policy.pick (listedMetas shape (flushedDisk config disk)),
      Compacts (flushedDisk config disk) candidate.inputs → ∀ record ∈ walRecords disk,
        compactedLookup shape (flushedDisk config disk) candidate record.key = loggedValue disk record.key

/-- The records in the log, once they are in a table above the others. -/
theorem lookup_flushedDisk {config : Config} {disk : Disk EntryFile}
    (replayed : Replayed (recoveredMemtable config disk) (walRecords disk)) {key : Key} {value : InternalValue}
    (last : loggedValue disk key = some value) : (diskLayers (flushedDisk config disk)).lookup key = some value := by
  have above : ∀ id ∈ disk.sst.keys, id < highestOf disk.sst.keys + 1 :=
    fun id member => Nat.lt_succ_of_le (le_highestOf member)
  rw [flushedDisk, diskLayers_putTable, Layers.lookup_insert_above _ (diskLayers_below above)]
  exact congrArg (fun found => Option.or found _) ((replayed.get key).trans last)

/-- Only a compaction can hide a record that was replayed. -/
theorem answers_iff {config : Config} {disk : Disk EntryFile}
    (replayed : Replayed (recoveredMemtable config disk) (walRecords disk)) {opened : World EntryFile}
    (reads : ∀ key, getInternal (entryFormat shape) opened key = .ok (openedLookup shape config disk key)) :
    Answers shape (walRecords disk) opened ↔ SparesLog shape config disk := by
  simp only [Answers, reads, Except.ok.injEq, openedLookup, checkedLookup, SparesLog]
  split
  · rename_i sized
    simp only [sized, forall_const]
    cases config.policy.pick (listedMetas shape (flushedDisk config disk)) with
    | none => exact ⟨fun _ => by simp, fun _ key value last => lookup_flushedDisk replayed last⟩
    | some candidate =>
      simp only [Option.mem_def, Option.some.injEq, forall_eq']
      split
      · rename_i compacts
        simp only [compacts, forall_const]
        constructor
        · intro answers record member
          obtain ⟨value, last⟩ := last?_isSome member
          rw [answers record.key value last]
          exact last.symm
        · intro spares key value last
          obtain ⟨record, member, same⟩ := last?_mem last
          rw [← same, spares record member, same]
          exact last
      · rename_i given
        simp only [given, false_implies, iff_true]
        exact fun key value last => lookup_flushedDisk replayed last
  · rename_i unsized
    simp only [unsized, false_implies, iff_true]
    intro key value last
    rw [replayed.get key, last]
    rfl

/-- No call fails behind the replay. -/
def CalmAfterReplay (disk : Disk EntryFile) (script : Script Call) : Prop :=
  (hearing (script.drop (recoveryStart disk)) disk.wal.bindings).2 = .calm

end

/-- The directory of an engine that has logged one value. -/
def loggedDisk : Disk EntryFile :=
  ((put (entryFormat .plain) [1] [10] 0).run .calm
    ⟨⟨.empty, SortedMap.empty.insert 1 []⟩, bootstrap restingConfig [] [] []⟩).2.2.disk

def fullConfig : Config := ⟨100, fullCompactionPolicy⟩

theorem allowed_failed_read (number : Nat) : Allowed ReadFaults (.only number .read .failed) :=
  allowed_only (fun _ => .inl rfl) number (.inr ⟨trivial, rfl⟩)

theorem drop_only (number : Nat) (kind : Call) (fate : Fate) : (Script.only number kind fate).drop (number + 1) = .calm := by
  funext index other
  have later : index + (number + 1) ≠ number := by omega
  simp [Script.drop, Script.only, Script.calm, later]

theorem calm_past_end : CalmAfterReplay loggedDisk (.only 4 .read .failed) := by
  have logged : loggedDisk.wal.bindings = [(1, [⟨.putRow, 0, 1, [1], [10]⟩])] := by decide +kernel
  have fits : ∀ record ∈ ([⟨.putRow, 0, 1, [1], [10]⟩] : List WalRecord), record.Fits := by decide
  have reads : ∀ number ∈ List.range' 2 2, Script.only 4 Call.read .failed number .read = .done := by decide
  have heard : heardSegment 1 ((Script.only 4 .read .failed).drop 2) [⟨.putRow, 0, 1, [1], [10]⟩] = _ :=
    heardSegment_all reads
  have rest := congrArg Prod.snd heard
  rw [CalmAfterReplay, logged]
  simp only [hearing, readBack_of_fits fits]
  exact rest.trans (drop_only 4 .read .failed)

set_option maxRecDepth 4000 in
theorem opens_past_end : ∃ engine rest after,
    (Engine.open (entryFormat .plain) fullConfig).run (.only 4 .read .failed) loggedDisk = (.ok engine, rest, after) :=
  ⟨_, _, _, rfl⟩

/-- A full compaction behind the flush drops a deletion that was replayed. -/
example : ¬ SparesLog .plain fullConfig ⟨.empty, SortedMap.empty.insert 1 [⟨.deleteRow, 0, 1, [1], []⟩]⟩ := by
  unfold SparesLog
  decide +kernel

end Engine

end Enigma
