import Enigma.Engine.LiveCompaction
import Enigma.Engine.Lifetimes

/-! Where sequences come from. The counter stays above every sequence that the
memtable, the tables and the log hold: while an engine runs because each write
takes the counter and moves it on, and across a reopen because the footers and
the replayed records say how far the engine before had come. -/

namespace Enigma

theorem le_highestSequence {entries : List Entry} {entry : Entry} (member : entry ∈ entries) :
    entry.2.sequence ≤ highestSequence entries := by
  have same : highestSequence entries = Engine.highestOf (entries.map fun entry => entry.2.sequence) :=
    (List.foldl_map).symm
  rw [same]
  exact Engine.le_highestOf (List.mem_map.mpr ⟨entry, member, rfl⟩)

theorem WalRecord.entry_sequence (record : WalRecord) : record.entry.2.sequence = record.sequence := by
  unfold WalRecord.entry
  split <;> rfl

namespace Engine

open Prog

theorem le_highestSeen {records : List WalRecord} {record : WalRecord} (member : record ∈ records) :
    record.sequence ≤ highestSeen 0 records := by
  have same : highestSeen 0 records = highestOf (records.map WalRecord.sequence) := (List.foldl_map).symm
  rw [same]
  exact le_highestOf (List.mem_map.mpr ⟨record, member, rfl⟩)

/-- Entries in the order of a table, with sequences below a bound. -/
structure EntriesBelow (bound : Nat) (entries : List Entry) : Prop where
  ascending : Assoc.Ascending entries
  sequences : ∀ entry ∈ entries, entry.2.sequence < bound

theorem EntriesBelow.mono {bound larger : Nat} {entries : List Entry} (below : EntriesBelow bound entries)
    (above : bound ≤ larger) : EntriesBelow larger entries :=
  ⟨below.ascending, fun entry member => (below.sequences entry member).trans_le above⟩

/-- Every table of a directory has sequences below a bound. -/
def TablesBelow (bound : Nat) (disk : Disk EntryFile) : Prop :=
  ∀ id file, disk.sst.find? id = some file → EntriesBelow bound file.entries

/-- Every sequence is below a bound, but for old segments that recovery removes. -/
structure Below (old : List Nat) (bound : Nat) (world : World EntryFile) : Prop where
  memtable : ∀ key version, world.engine.activeMemtable.get key = some version → version.sequence < bound
  tables : TablesBelow bound world.disk
  log : ∀ id records, world.disk.wal.find? id = some records → id ∉ old → ∀ record ∈ records, record.sequence < bound

theorem Below.mono {old : List Nat} {bound larger : Nat} {world : World EntryFile} (below : Below old bound world)
    (above : bound ≤ larger) : Below old larger world where
  memtable := fun key version found => (below.memtable key version found).trans_le above
  tables := fun id file found => (below.tables id file found).mono above
  log := fun id records found kept record member => (below.log id records found kept record member).trans_le above

/-- Segments may go and come empty. -/
theorem Below.changeLog {old : List Nat} {bound : Nat} {world after : World EntryFile} (below : Below old bound world)
    (memtable : ∀ key version, after.engine.activeMemtable.get key = some version →
      world.engine.activeMemtable.get key = some version)
    (tables : after.disk.sst = world.disk.sst)
    (log : ∀ id records, after.disk.wal.find? id = some records → records = [] ∨ world.disk.wal.find? id = some records) :
    Below old bound after where
  memtable := fun key version found => below.memtable key version (memtable key version found)
  tables := by
    rw [TablesBelow, tables]
    exact below.tables
  log := by
    intro id records found kept record member
    rcases log id records found with rfl | same
    · cases member
    · exact below.log id records same kept record member

section

variable {shape : TableShape} {old : List Nat} {bound lsn : Nat} {world : World EntryFile}

/-- The merge of tables with sequences below a bound is one again. -/
theorem entriesBelow_merge {files : List EntryFile} (below : ∀ file ∈ files, EntriesBelow bound file.entries) (full : Bool) :
    EntriesBelow bound (compactedEntries (files.map fun file => (entryFormat shape).scan file fun _ => none) full) := by
  simp only [entryFormat_scan_entries]
  have merged := merge_of_ascending fun file member =>
    (below file member).ascending.sublist (shape.delivered_sublist file.entries)
  refine ⟨List.Pairwise.filter _ merged.ascending, ?_⟩
  intro entry carried
  obtain ⟨file, member, held⟩ := mem_delivered.mp (merged.newest entry (List.mem_filter.mp carried).1).1
  exact (below file member).sequences entry ((shape.delivered_sublist file.entries).subset held)

/-- Work on tables leaves the counter alone and every sequence below it. -/
theorem below_kept (shape : TableShape) (old : List Nat) (bound lsn : Nat) : TableInvariant (entryFormat shape)
    (fun world => Below old bound world ∧ world.engine.lsn = lsn) (EntriesBelow bound) where
  mint := fun _ ⟨below, counter⟩ => ⟨⟨below.memtable, below.tables, below.log⟩, counter⟩
  publish := fun _ _ ⟨below, counter⟩ => ⟨⟨below.memtable, below.tables, below.log⟩, counter⟩
  unlink := by
    rintro world id ⟨below, counter⟩
    refine ⟨⟨below.memtable, ?_, below.log⟩, counter⟩
    intro other file found
    change (world.disk.sst.erase id).find? other = some file at found
    rw [SortedMap.find?_erase] at found
    split at found
    · cases found
    · exact below.tables other file found
  write := by
    rintro world id estimatedKeys entries ⟨below, counter⟩ fine
    refine ⟨⟨below.memtable, ?_, below.log⟩, counter⟩
    intro other file found
    rw [entryFormat_complete, Disk.putTable_sst, SortedMap.find?_insert] at found
    split at found
    · cases found
      exact fine
    · exact below.tables other file found
  merge := by
    rintro world files full ⟨below, _⟩ stored
    refine entriesBelow_merge ?_ full
    intro file member
    obtain ⟨id, found⟩ := stored file member
    exact below.tables id file found

theorem Below.memtableEntries (below : Below old bound world) :
    EntriesBelow bound world.engine.activeMemtable.entries.bindings :=
  ⟨world.engine.activeMemtable.entries.ascending,
    fun entry member => below.memtable entry.1 entry.2 (SortedMap.find?_eq_some_iff.mpr member)⟩

theorem Below.openWal (below : Below old bound world) (seq next : Nat) :
    Below old bound ⟨world.disk.openWal seq, { world.engine with nextWalSeq := next }⟩ := by
  refine below.changeLog (fun _ _ found => found) (Disk.openWal_sst seq world.disk) ?_
  intro id records found
  rw [Disk.openWal_find?] at found
  split at found
  · rename_i same
    cases stored : world.disk.wal.find? seq with
    | none =>
      rw [stored] at found
      cases found
      exact .inl rfl
    | some held =>
      rw [stored] at found
      cases found
      exact .inr (same ▸ stored)
  · exact .inr found

theorem wp_flush_below (below : Below old bound world) (counter : world.engine.lsn = lsn) :
    wp Faultless (flush (entryFormat shape)) (Post.always fun after => Below old bound after ∧ after.engine.lsn = lsn)
      world := by
  have kept := below_kept shape old bound lsn
  refine wp_getState_bind ?_
  split
  · exact wp_pure ⟨below, counter⟩
  · refine wp_bind (wp_faultless_flushMemtable kept kept ⟨below, counter⟩ below.memtableEntries ?_ (fun _ _ holds => holds) ?_)
    · rintro before ⟨below, counter⟩
      exact ⟨below.openWal _ _, counter⟩
    · rintro before after _ ⟨below, counter⟩
      have rotated : Below old bound ⟨after.disk.dropWal (before.engine.nextWalSeq - 1), { after.engine with
          walWriter := before.engine.nextWalSeq, activeMemtable := .new after.engine.memtableSize }⟩ := by
        refine below.changeLog (by simp [Memtable.get, Memtable.new]) rfl ?_
        intro id records found
        change (after.disk.wal.erase (before.engine.nextWalSeq - 1)).find? id = some records at found
        rw [SortedMap.find?_erase] at found
        split at found
        · cases found
        · exact .inr found
      refine wp_bind (wp_attempt (wp_mono (wp_faultless_doCompactWork kept ⟨rotated, counter⟩) ?_ ?_ ?_))
      · exact fun _ _ holds => wp_pure holds
      · exact fun _ _ holds => wp_pure holds
      · exact fun _ holds => holds

theorem appendWal_find? {disk : Disk EntryFile} {seq id : Nat} {record : WalRecord} {records : List WalRecord}
    (found : (disk.appendWal seq record).wal.find? id = some records) :
    ∃ stored, disk.wal.find? id = some stored ∧ (records = stored ∨ records = stored ++ [record]) := by
  rw [Disk.appendWal] at found
  split at found
  · rename_i stored held
    rw [SortedMap.find?_insert] at found
    split at found
    · rename_i same
      cases found
      exact ⟨stored, same ▸ held, .inr rfl⟩
    · exact ⟨records, found, .inl rfl⟩
  · exact ⟨records, found, .inl rfl⟩

/-- A write takes the counter and moves it on. -/
theorem Below.written (below : Below [] world.engine.lsn world) (key : Key) (value : Option Bytes) (timestamp : Nat) :
    Below [] (written world key value timestamp).engine.lsn (written world key value timestamp) where
  memtable := by
    intro other version found
    change (storeWrite world.engine.activeMemtable key value world.engine.lsn).entries.find? other = some version at found
    rw [storeWrite_eq, Memtable.store_entries, SortedMap.find?_insert] at found
    split at found
    · cases found
      exact Nat.lt_succ_self _
    · exact Nat.lt_succ_of_lt (below.memtable other version found)
  tables := by
    intro id file found
    change (world.disk.appendWal world.engine.walWriter _).sst.find? id = some file at found
    rw [Disk.appendWal_sst] at found
    exact (below.tables id file found).mono (Nat.le_succ _)
  log := by
    intro id records found kept record member
    obtain ⟨stored, held, same⟩ := appendWal_find? found
    have earlier : ∀ record ∈ stored, record.sequence < world.engine.lsn + 1 :=
      fun record inside => Nat.lt_succ_of_lt (below.log id stored held kept record inside)
    rcases same with rfl | rfl
    · exact earlier record member
    · rcases List.mem_append.mp member with inside | last
      · exact earlier record inside
      · rw [List.mem_singleton.mp last]
        exact Nat.lt_succ_self _

theorem Below.replayed {records : List WalRecord} (below : Below old bound world)
    (lower : ∀ record ∈ records, record.sequence < bound) : Below old bound (replayedWorld world records) := by
  induction records generalizing world with
  | nil => exact below
  | cons record later ih =>
    obtain ⟨here, rest⟩ := List.forall_mem_cons.mp lower
    have first : Below old bound (replayedWorld world [record]) := by
      refine ⟨?_, below.tables, below.log⟩
      intro key version found
      change (replayRecord world.engine.activeMemtable record).entries.find? key = some version at found
      rw [replayRecord_eq, Memtable.store_entries, SortedMap.find?_insert] at found
      split at found
      · cases found
        rw [record.entry_sequence]
        exact here
      · exact below.memtable key version found
    exact ih first rest

theorem Below.cleaned {segments : List (Nat × List WalRecord)} (below : Below (segments.map Prod.fst) bound world)
    (highest : Nat) : Below [] bound (cleaned segments highest world) where
  memtable := below.memtable
  tables := by
    rw [TablesBelow, Engine.cleaned, foldl_dropWal]
    exact below.tables
  log := by
    intro id records found _ record member
    rw [Engine.cleaned, foldl_dropWal, SortedMap.foldl_erase_find?] at found
    split at found
    · cases found
    · rename_i kept
      exact below.log id records found kept record member

/-- The footers say how far the sequences in the tables go. -/
theorem tablesBelow_boot (config : Config) {disk : Disk EntryFile} {metas : List SSTableMeta}
    (below : TablesBelow bound disk) (read : List.Forall₂ (ReadFrom (entryFormat shape) disk) disk.sst.keys metas) :
    TablesBelow (bootWorld config disk metas).engine.lsn disk := by
  intro id file found
  obtain ⟨row, listed, stored, info, present, accepted, same⟩ :=
    forall₂_left read (SortedMap.mem_keys_iff.mpr ⟨file, found⟩)
  cases Option.some.inj (found.symm.trans present)
  refine ⟨(below id file found).ascending, ?_⟩
  intro entry member
  obtain ⟨estimatedKeys, entries, whole, positive⟩ := entryFormat_create_ok shape accepted
  rw [whole, entryFormat_create_whole shape entries positive] at accepted
  cases accepted
  have footer : row.maxSequence = highestSequence entries := by rw [same]; rfl
  rw [whole] at member
  have upper : row.maxSequence ≤ highestOf (metas.map SSTableMeta.maxSequence) :=
    le_highestOf (List.mem_map.mpr ⟨row, listed, rfl⟩)
  have lower : entry.2.sequence ≤ highestSequence entries := le_highestSequence member
  change entry.2.sequence < highestOf (metas.map SSTableMeta.maxSequence) + 1
  omega

/-- Before the replay, every sequence is below the counter or in an old segment. -/
theorem below_boot {config : Config} {disk : Disk EntryFile} {metas : List SSTableMeta}
    (tables : TablesBelow (bootWorld config disk metas).engine.lsn disk) :
    Below ((oldWalFiles (bootWorld config disk metas)).map Prod.fst) (bootWorld config disk metas).engine.lsn
      (bootWorld config disk metas) where
  memtable := by
    intro key version found
    cases found
  tables := by
    intro id file found
    rw [bootWorld, Disk.openWal_sst] at found
    exact tables id file found
  log := by
    intro id records found kept record member
    change (disk.openWal (highestOf disk.wal.keys + 1)).wal.find? id = some records at found
    by_cases own : id = highestOf disk.wal.keys + 1
    · have unused : disk.wal.find? (highestOf disk.wal.keys + 1) = none :=
        SortedMap.find?_eq_none_iff.mpr fun stored => absurd (le_highestOf stored) (by omega)
      rw [Disk.openWal_find?, if_pos own, unused] at found
      cases found
      cases member
    · rw [Disk.openWal_find?, if_neg own] at found
      rw [oldWalFiles_boot] at kept
      exact absurd (SortedMap.mem_keys_iff.mpr ⟨records, found⟩) kept

theorem wp_open_below (shape : TableShape) (config : Config) {disk : Disk EntryFile} (rests : ∃ bound, TablesBelow bound disk) :
    wp Faultless (Engine.open (entryFormat shape) config)
      ⟨fun engine after => Below [] engine.lsn ⟨after, engine⟩, fun _ after => ∃ bound, TablesBelow bound after,
        fun after => ∃ bound, TablesBelow bound after⟩ disk := by
  refine wp_faultless_open (fun _ => rests) ?_
  intro metas read
  obtain ⟨_, sorted⟩ := rests
  have booted := below_boot (tablesBelow_boot config sorted read)
  refine wp_faultless_recover ?_ ?_
  · intro nothing
    rw [nothing] at booted
    exact booted
  · let records := foundRecords (oldWalFiles (bootWorld config disk metas))
    let counter := (bootWorld config disk metas).engine.lsn
    have lower : ∀ record ∈ records, record.sequence < max counter (highestSeen 0 records + 1) :=
      fun record member => lt_max_of_lt_right (Nat.lt_succ_of_le (le_highestSeen member))
    have replayed := (booted.mono (le_max_left counter _)).replayed lower
    have finished : ∀ after : World EntryFile, Below ((oldWalFiles (bootWorld config disk metas)).map Prod.fst)
          (max counter (highestSeen 0 records + 1)) after → after.engine.lsn = counter →
        Below [] (cleaned (oldWalFiles (bootWorld config disk metas)) (highestSeen 0 records) after).engine.lsn
          (cleaned (oldWalFiles (bootWorld config disk metas)) (highestSeen 0 records) after) := by
      intro after below same
      refine (below.cleaned _).mono ?_
      change _ ≤ max after.engine.lsn (highestSeen 0 records) + 1
      omega
    refine wp_getState_bind ?_
    split
    · refine wp_mono (wp_flush_below replayed rfl) ?_ ?_ ?_
      · exact fun _ after holds => finished after holds.1 holds.2
      · exact fun _ after holds => ⟨_, holds.1.tables⟩
      · exact fun after holds => ⟨_, holds.1.tables⟩
    · exact wp_pure (finished _ replayed rfl)

/-- The counter of every engine is above every sequence that is stored. -/
theorem lifetime_below (shape : TableShape) (actions : List Action) {disk : Disk EntryFile} {engine : Dazzle}
    (running : lifetime (entryFormat shape) actions = ⟨disk, some engine⟩) : Below [] engine.lsn ⟨disk, engine⟩ := by
  have settled : ∀ (lsn : Nat) (world : World EntryFile), Below [] lsn world ∧ world.engine.lsn = lsn →
      Below [] world.engine.lsn world := fun _ _ ⟨below, same⟩ => same ▸ below
  have keeps : Keeps (fun disk => ∃ bound, TablesBelow bound disk) (fun world => Below [] world.engine.lsn world)
      (lifetime (entryFormat shape) actions) := by
    refine lifetime_keeps ⟨0, fun _ _ found => by cases found⟩ (fun world below => ⟨_, below.tables⟩)
      (wp_faultless_operation ?_ (fun _ key value timestamp below => below.written key value timestamp) ?_)
      (fun config disk rests => wp_open_below shape config rests) actions
    · intro world below
      exact ⟨_, _, below_kept shape [] world.engine.lsn world.engine.lsn, ⟨below, rfl⟩, settled world.engine.lsn⟩
    · intro world below
      have done := settled world.engine.lsn
      exact wp_mono (wp_flush_below below rfl) (fun _ => done) (fun _ => done) done
  rw [running] at keeps
  exact keeps.running engine rfl

/-- The key, the value and the time of a write; a `put` of no bytes is refused. -/
def Operation.writes : Operation → Option (Key × Option Bytes × Nat)
  | .put key value timestamp => if value = [] then none else some (key, some value, timestamp)
  | .remove key timestamp => some (key, none, timestamp)
  | .flush | .doCompactWork | .compactNow => none

theorem Operation.prog_of_writes {F : Type} (format : TableFormat F) {operation : Operation} {key : Key}
    {value : Option Bytes} {timestamp : Nat} (writes : operation.writes = some (key, value, timestamp)) :
    operation.prog format = write format key value timestamp := by
  cases operation with
  | put name bytes time =>
    rw [Operation.writes] at writes
    split at writes
    · cases writes
    · rename_i filled
      cases writes
      exact if_neg filled
  | remove name time =>
    cases writes
    rfl
  | flush | doCompactWork | compactNow => cases writes

/-- A sequence above all that a state holds: in the memtable, in the tables, of the
current version or not, and in the log. -/
structure Fresh (sequence : Nat) (world : World EntryFile) : Prop where
  memtable : ∀ key version, world.engine.activeMemtable.get key = some version → version.sequence < sequence
  tables : ∀ id, ∀ entry ∈ entriesAt world.disk id, entry.2.sequence < sequence
  log : ∀ id records, world.disk.wal.find? id = some records → ∀ record ∈ records, record.sequence < sequence

/-- A write has given a key a sequence: the log and the memtable have it. -/
structure Assigned (world stored : World EntryFile) (key : Key) (sequence : Nat) : Prop where
  logged : ∃ record, record.key = key ∧ record.sequence = sequence ∧
    stored.disk = world.disk.appendWal world.engine.walWriter record
  held : ∃ version, version.sequence = sequence ∧ stored.engine.activeMemtable.get key = some version

/-- Every write assigns a fresh sequence. -/
theorem sequences_are_fresh (shape : TableShape) (actions : List Action) {disk : Disk EntryFile} {engine : Dazzle}
    (running : lifetime (entryFormat shape) actions = ⟨disk, some engine⟩) {operation : Operation} {key : Key}
    {value : Option Bytes} {timestamp : Nat} (writes : operation.writes = some (key, value, timestamp)) :
    ∃ sequence stored, Assigned ⟨disk, engine⟩ stored key sequence ∧
      (operation.prog (entryFormat shape)).run .calm ⟨disk, engine⟩ =
        (if stored.engine.activeMemtable.shouldFlush then flush (entryFormat shape) else pure ()).run .calm stored ∧
      Fresh sequence ⟨disk, engine⟩ := by
  have below := lifetime_below shape actions running
  refine ⟨engine.lsn, written ⟨disk, engine⟩ key value timestamp, ⟨?_, ?_⟩, ?_, below.memtable, ?_,
    fun id records found => below.log id records found (by simp)⟩
  · exact ⟨_, rfl, rfl, rfl⟩
  · refine ⟨⟨value.getD [], value.isNone, engine.lsn⟩, rfl, ?_⟩
    simp [written, Memtable.get, storeWrite_eq]
  · rw [operation.prog_of_writes _ writes, ite_run]
    exact write_run _ benign_calm _ key value timestamp
  · intro id entry member
    rw [entriesAt] at member
    cases found : disk.sst.find? id with
    | none => simp [found] at member
    | some file =>
      rw [found] at member
      exact (below.tables id file found).sequences entry member

/-- A tombstone with the highest sequence is compacted away before the reopen. -/
def compactedAway : List Action :=
  [.open restingConfig, .operate (.put [1] [10] 0), .operate .flush, .operate (.remove [1] 0), .operate .flush,
    .operate .compactNow, .crash, .open restingConfig]

theorem sequences_are_fresh_compacted_away : ∃ disk engine sequence stored,
    lifetime (entryFormat .plain) compactedAway = ⟨disk, some engine⟩ ∧
    Assigned ⟨disk, engine⟩ stored [2] sequence ∧ Fresh sequence ⟨disk, engine⟩ := by
  have running : lifetime (entryFormat .plain) compactedAway = ⟨_, some _⟩ := rfl
  have writes : (Operation.put [2] [20] 0).writes = some ([2], some [20], 0) := rfl
  obtain ⟨sequence, stored, assigned, _, fresh⟩ := sequences_are_fresh .plain compactedAway running writes
  exact ⟨_, _, sequence, stored, running, assigned, fresh⟩

end

end Engine

end Enigma
