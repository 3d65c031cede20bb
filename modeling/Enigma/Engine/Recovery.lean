import Enigma.Engine.Durability

/-! Opening a directory. The old segments are replayed into the memtable, the
memtable is flushed, and only then are the segments removed, so a recovery that
is cut off anywhere leaves a directory that says the same. -/

namespace Enigma

namespace Engine

open Prog

theorem replayRecord_eq (memtable : Memtable) (record : WalRecord) :
    replayRecord memtable record = memtable.store record.key record.entry.2 := by
  unfold replayRecord WalRecord.entry
  split <;> rfl

/-- What a memtable holds after a replay. -/
structure Replayed (memtable : Memtable) (records : List WalRecord) : Prop where
  accounted : memtable.Accounted
  get : ∀ key, memtable.get key = Assoc.last? (records.map WalRecord.entry) key

theorem Replayed.snoc {memtable : Memtable} {records : List WalRecord} (replayed : Replayed memtable records)
    (record : WalRecord) : Replayed (replayRecord memtable record) (records ++ [record]) where
  accounted := by
    rw [replayRecord_eq]
    exact Memtable.store_accounted replayed.accounted _ _
  get := by
    intro key
    have shape : record.entry = (record.key, record.entry.2) := Prod.ext record.entry_key rfl
    rw [List.map_append, List.map_singleton, shape, Assoc.last?_concat, ← replayed.get key, replayRecord_eq]
    simp only [Memtable.get, Memtable.store_entries, SortedMap.find?_insert]

theorem Replayed.foldl {memtable : Memtable} {earlier : List WalRecord} (replayed : Replayed memtable earlier)
    (records : List WalRecord) : Replayed (records.foldl replayRecord memtable) (earlier ++ records) := by
  induction records generalizing memtable earlier with
  | nil => simpa using replayed
  | cons record later ih => simpa using ih (replayed.snoc record)

theorem replayed_new (memtableSize : Nat) (records : List WalRecord) :
    Replayed (records.foldl replayRecord (.new memtableSize)) records := by
  have start : Replayed (.new memtableSize) [] := ⟨Memtable.new_accounted memtableSize, fun _ => rfl⟩
  simpa using start.foldl records

/-- The key has at least one byte. -/
def Filled (record : WalRecord) : Prop := record.key ≠ []

/-- A record that a recovery is sure to take into a table. -/
structure Loggable (record : WalRecord) : Prop where
  filled : Filled record
  fits : record.Fits

theorem last?_mem {records : List WalRecord} {key : Key} {value : InternalValue}
    (found : Assoc.last? (records.map WalRecord.entry) key = some value) : ∃ record ∈ records, record.key = key := by
  have held := Assoc.mem_of_find? found
  rw [List.mem_reverse] at held
  obtain ⟨record, present, same⟩ := List.mem_map.mp held
  exact ⟨record, present, record.entry_key.symm.trans (congrArg Prod.fst same)⟩

theorem last?_isSome {records : List WalRecord} {record : WalRecord} (member : record ∈ records) :
    ∃ value, Assoc.last? (records.map WalRecord.entry) record.key = some value := by
  cases found : Assoc.last? (records.map WalRecord.entry) record.key with
  | some value => exact ⟨value, rfl⟩
  | none =>
    have missing := Assoc.last?_eq_none_iff.mp found record.entry (List.mem_map_of_mem member)
    exact absurd record.entry_key missing

/-- With such keys, a replayed memtable that looks empty is. -/
theorem Replayed.size_pos_iff {memtable : Memtable} {records : List WalRecord} (replayed : Replayed memtable records)
    (keyed : ∀ record ∈ records, record.key ≠ []) : 0 < memtable.approximateSize ↔ memtable.count ≠ 0 := by
  rw [Memtable.approximateSize_pos_iff replayed.accounted, Nat.pos_iff_ne_zero]
  intro key member
  obtain ⟨value, found⟩ := SortedMap.mem_keys_iff.mp member
  obtain ⟨record, present, named⟩ := last?_mem ((replayed.get key).symm.trans found)
  rw [← named]
  exact keyed record present

section

variable {world : World EntryFile} {may : Call → Fate → Prop}

/-- The state after a replay of records. -/
def replayedWorld {F : Type} (world : World F) (records : List WalRecord) : World F :=
  { world with engine := { world.engine with
      activeMemtable := records.foldl replayRecord world.engine.activeMemtable } }

/-- The highest sequence of some records, or a number that is higher. -/
def highestSeen (highest : Nat) (records : List WalRecord) : Nat :=
  records.foldl (fun highest record => max highest record.sequence) highest

/-- The records that a replay of segments gets out of their bytes, in order. -/
def foundRecords (segments : List (Nat × List WalRecord)) : List WalRecord :=
  segments.flatMap fun segment => (readBack segment.2).records

theorem foundRecords_of_fits {segments : List (Nat × List WalRecord)}
    (fits : ∀ segment ∈ segments, ∀ record ∈ segment.2, record.Fits) :
    foundRecords segments = segments.flatMap Prod.snd := by
  induction segments with
  | nil => rfl
  | cons segment later ih =>
    have rest := ih fun other member => fits other (by simp [member])
    rw [foundRecords] at rest
    rw [foundRecords, List.flatMap_cons, List.flatMap_cons, readBack_of_fits (fits segment (by simp)), rest]

theorem lastReads_run {F : Type} (count : Nat) (world : World F) :
    (forEach (List.replicate count Call.read) passive : Prog Call Error (World F) Unit).run .calm world =
      (.ok (), .calm, world) := by
  induction count with
  | zero => rfl
  | succ count ih => exact ih

theorem replaySegment_run {F : Type} (lastReads : Nat) (records : List WalRecord) (highest : Nat) (world : World F) :
    (replaySegment lastReads records highest).run .calm world =
      (.ok (highestSeen highest records), .calm, replayedWorld world records) := by
  induction records generalizing highest world with
  | nil => rw [replaySegment, bind_run_ok (attempt_run_ok (lastReads_run lastReads world))]; rfl
  | cons record later ih => exact ih (max highest record.sequence) (replayedWorld world [record])

theorem replaySegments_run {F : Type} (segments : List (Nat × List WalRecord)) (highest : Nat) (world : World F) :
    (replaySegments segments highest).run .calm world =
      (.ok (highestSeen highest (foundRecords segments)), .calm, replayedWorld world (foundRecords segments)) := by
  induction segments generalizing highest world with
  | nil => rfl
  | cons segment later ih =>
    obtain ⟨id, records⟩ := segment
    have first : (passive .open : Prog Call Error (World F) Unit).run .calm world = (.ok (), .calm, world) := rfl
    rw [replaySegments, bind_run_ok first, bind_run_ok (replaySegment_run _ _ highest world), ih]
    simp only [highestSeen, replayedWorld, foundRecords, List.flatMap_cons, List.foldl_append]

theorem wp_replaySegment (faults : WriteFaults may) (lastReads : Nat) (records : List WalRecord) (highest : Nat)
    {post : Post Error (World EntryFile) Nat} (ok : ∀ found, post.ok found (replayedWorld world records))
    (crash : ∀ after, after.disk = world.disk → post.crash after) :
    wp may (replaySegment lastReads records highest) post world := by
  have reads : ¬ may .read .failed := by
    intro failed
    rcases faults _ failed with same | same | same <;> cases same
  induction records generalizing world highest with
  | nil =>
    refine wp_bind (wp_attempt (wp_forEach (fun remaining after => after = world ∧ ∀ kind ∈ remaining, kind = .read)
      ⟨rfl, fun _ => List.eq_of_mem_replicate⟩ ?_ ?_))
    · intro after same
      rw [same.1]
      exact wp_pure (ok highest)
    · rintro kind remaining after ⟨rfl, kinds⟩
      have read : kind = .read := kinds kind (by simp)
      subst read
      refine wp_call ⟨rfl, fun other member => kinds other (by simp [member])⟩ (fun failed => absurd failed reads) ?_
      exact fun _ => crash _ rfl
  | cons record later ih =>
    refine wp_bind (wp_attempt (wp_call_bind ?_ (fun failed => absurd failed reads) (fun _ => crash _ rfl)))
    refine wp_call ?_ (fun failed => absurd failed reads) (fun _ => crash _ rfl)
    refine wp_bind (wp_of_run (fun script => onEngine_run _ script _) ?_)
    exact ih _ ok crash

theorem wp_replaySegments (faults : WriteFaults may) (segments : List (Nat × List WalRecord)) (highest : Nat)
    {post : Post Error (World EntryFile) Nat}
    (ok : ∀ found, post.ok found (replayedWorld world (foundRecords segments)))
    (err : ∀ error after, Fallible may → after.disk = world.disk → post.err error after)
    (crash : ∀ after, after.disk = world.disk → post.crash after) :
    wp may (replaySegments segments highest) post world := by
  induction segments generalizing world highest with
  | nil => exact wp_pure (ok highest)
  | cons segment later ih =>
    obtain ⟨id, records⟩ := segment
    refine wp_call_bind ?_ (fun failed => err _ _ ⟨_, by decide, failed⟩ rfl) (fun _ => crash _ rfl)
    refine wp_bind (wp_replaySegment faults _ _ highest ?_ crash)
    intro found
    refine ih found ?_ err crash
    intro final
    have whole := ok final
    simpa [replayedWorld, foundRecords, List.foldl_append] using whole

end

section

variable {shape : TableShape} {logs : WalRecord → Prop} {accepts : Reading} {world : World EntryFile} {may : Call → Fate → Prop}

/-- The engine that `open` has built: all tables are live, and its own segment
is new, empty and the last. -/
structure Bootstrapped (shape : TableShape) (logs : WalRecord → Prop) (accepts : Reading) (world : World EntryFile) : Prop
    extends Stocked world, Closed shape logs accepts world.disk where
  numbered : ∀ id ∈ world.disk.sst.keys, id < world.engine.nextSstSeq
  all : liveLayers world = diskLayers world.disk
  blank : world.engine.activeMemtable = .new world.engine.memtableSize
  idle : world.engine.policy.NeverPicks
  positive : 0 < world.engine.walWriter
  next : world.engine.nextWalSeq = world.engine.walWriter
  own : world.disk.wal.find? world.engine.walWriter = some []
  last : ∀ id ∈ world.disk.wal.keys, id ≤ world.engine.walWriter

def oldWalFiles {F : Type} (world : World F) : List (Nat × List WalRecord) :=
  world.disk.wal.bindings.filter fun segment => segment.1 < world.engine.nextWalSeq

private theorem flatMap_filter {segments : List (Nat × List WalRecord)} {keep : Nat × List WalRecord → Bool}
    (rest : ∀ segment ∈ segments, keep segment = false → segment.2 = []) :
    (segments.filter keep).flatMap Prod.snd = segments.flatMap Prod.snd := by
  induction segments with
  | nil => rfl
  | cons segment later ih =>
    have tail := ih (fun other member => rest other (by simp [member]))
    cases kept : keep segment with
    | true => simp [kept, tail]
    | false => simp [kept, tail, rest segment (by simp) kept]

/-- Everything in the log is in the old segments. -/
theorem Bootstrapped.oldRecords (boot : Bootstrapped shape logs accepts world) :
    (oldWalFiles world).flatMap Prod.snd = walRecords world.disk := by
  refine flatMap_filter ?_
  intro segment member excluded
  obtain ⟨id, records⟩ := segment
  have found : world.disk.wal.find? id = some records := SortedMap.find?_eq_some_iff.mpr member
  have bound := boot.last id (SortedMap.mem_keys_iff.mpr ⟨records, found⟩)
  have next := boot.next
  have same : id = world.engine.walWriter := by
    simp only [decide_eq_false_iff_not, not_lt] at excluded
    omega
  subst same
  simpa [boot.own] using found.symm

/-- What a replay finds of it, when every record in it can be read back. -/
theorem Bootstrapped.found (boot : Bootstrapped shape logs accepts world)
    (fits : ∀ record, logs record → record.Fits) : foundRecords (oldWalFiles world) = walRecords world.disk := by
  have logged := boot.toClosed.logged
  rw [← boot.oldRecords] at logged ⊢
  exact foundRecords_of_fits fun segment old record member =>
    fits record (logged record (List.mem_flatMap.mpr ⟨segment, old, member⟩))

/-- Once the log is in the memtable the engine shows what the directory says. -/
theorem Bootstrapped.replayed (boot : Bootstrapped shape logs accepts world) :
    Flushable shape logs accepts (replayedWorld world (walRecords world.disk)) := by
  have memtable := replayed_new world.engine.memtableSize (walRecords world.disk)
  rw [← boot.blank] at memtable
  exact {
    toStocked := { boot.toStocked with }
    toClosed := boot.toClosed
    numbered := boot.numbered
    positive := boot.next ▸ boot.positive
    agree := fun key _ => congrArg (fun layers => Layers.lookup layers key) boot.all.symm
    inMemory := by
      intro key
      have seen : view (replayedWorld world (walRecords world.disk)) key = diskView world.disk key := by
        rw [view, diskView, ← boot.all]
        exact congrArg (fun found => Option.or found _) (memtable.get key)
      rw [seen]
      exact boot.onDisk key
    idle := boot.idle }

/-- The clean-up of a recovery: nothing is left in memory, and the segments to
come are the only ones besides the engine's own. -/
structure Settled (shape : TableShape) (logs : WalRecord → Prop) (accepts : Reading) (seq : Nat)
    (remaining : List (Nat × List WalRecord)) (world : World EntryFile) : Prop extends Flushable shape logs accepts world where
  emptied : ∀ key, world.engine.activeMemtable.get key = none
  writer : world.engine.walWriter = seq
  lower : seq ≤ world.engine.nextWalSeq
  upper : world.engine.nextWalSeq ≤ seq + 1
  logged : (world.disk.wal.find? seq).isSome
  numbers : ∀ id ∈ world.disk.wal.keys, id = seq ∨ id ∈ remaining.map Prod.fst

theorem Settled.dropWal {seq : Nat} {segment : Nat × List WalRecord} {remaining : List (Nat × List WalRecord)}
    (settled : Settled shape logs accepts seq (segment :: remaining) world) (older : segment.1 < seq) :
    Settled shape logs accepts seq remaining { world with disk := world.disk.dropWal segment.1 } := {
  settled with
  toClosed := by
    refine settled.toClosed.dropWal segment.1 ?_
    intro key
    have shown := settled.inMemory key
    rw [view, settled.emptied key, ← settled.agree key (settled.emptied key)] at shown
    simpa using shown
  logged := by
    have different : seq ≠ segment.1 := ne_of_gt older
    simp only [Disk.dropWal, SortedMap.find?_erase, different, ↓reduceIte]
    exact settled.logged
  numbers := by
    intro id member
    simp only [Disk.dropWal, SortedMap.mem_keys_erase] at member
    rcases settled.numbers id member.2 with own | old
    · exact .inl own
    · rcases List.mem_cons.mp old with here | later
      · exact absurd here member.1
      · exact .inr later }

theorem Settled.durable {seq : Nat} (settled : Settled shape logs accepts seq [] world) :
    Durable shape logs accepts world ∧ Tight world := by
  have upper := settled.upper
  refine ⟨{ settled.toFlushable with log := ?_, logged := ?_, ahead := ?_ }, ?_⟩
  · intro id records found different
    rcases settled.numbers id (SortedMap.mem_keys_iff.mpr ⟨records, found⟩) with own | none
    · exact absurd (own.trans settled.writer.symm) different
    · simp at none
  · rw [settled.writer]
    exact settled.logged
  · rw [settled.writer]
    exact settled.lower
  · rw [Tight, settled.writer]
    exact upper

theorem Bootstrapped.numbers (boot : Bootstrapped shape logs accepts world) :
    ∀ id ∈ world.disk.wal.keys, id = world.engine.walWriter ∨ id ∈ (oldWalFiles world).map Prod.fst := by
  intro id member
  obtain ⟨records, found⟩ := SortedMap.mem_keys_iff.mp member
  rcases Nat.lt_or_eq_of_le (boot.last id member) with less | same
  · right
    refine List.mem_map.mpr ⟨(id, records), ?_, rfl⟩
    refine List.mem_filter.mpr ⟨SortedMap.find?_eq_some_iff.mp found, ?_⟩
    simpa [boot.next] using less
  · exact .inl same

/-- The replayed log needs no flush when it is empty. -/
theorem Bootstrapped.settled_empty (boot : Bootstrapped shape logs accepts world)
    (none : (replayedWorld world (walRecords world.disk)).engine.activeMemtable.count = 0) :
    Settled shape logs accepts world.engine.walWriter (oldWalFiles world)
      (replayedWorld world (walRecords world.disk)) := {
  boot.replayed with
  emptied := SortedMap.size_eq_zero_iff.mp none
  writer := rfl
  lower := boot.next.ge
  upper := by
    have next := boot.next
    simp only [replayedWorld]
    omega
  logged := by simp [replayedWorld, boot.own]
  numbers := boot.numbers }

theorem Bootstrapped.settled_flushed (boot : Bootstrapped shape logs accepts world)
    (filled : (replayedWorld world (walRecords world.disk)).engine.activeMemtable.count ≠ 0)
    {versionSet : VersionSet} {info : TableInfo} (quiet : versionSet.Quiet)
    (files : versionSet.currentVersion.files = world.engine.version.files.insert world.engine.nextSstSeq
      (tableMeta world.engine.nextSstSeq info)) :
    Settled shape logs accepts world.engine.walWriter (oldWalFiles world)
      (flushedWorld (entryFormat shape) (replayedWorld world (walRecords world.disk)) versionSet) := {
  boot.replayed.flushed filled quiet files with
  emptied := fun _ => rfl
  writer := boot.next
  lower := by
    have next := boot.next
    simp only [flushedWorld, replayedWorld]
    omega
  upper := by
    have next := boot.next
    simp only [flushedWorld, replayedWorld]
    omega
  logged := by
    have positive := boot.positive
    have different : world.engine.walWriter ≠ world.engine.walWriter - 1 := by omega
    simp [flushedWorld, replayedWorld, Disk.dropWal, Disk.openWal_find?, boot.next, different]
  numbers := by
    intro id member
    obtain ⟨records, found⟩ := SortedMap.mem_keys_iff.mp member
    simp only [flushedWorld, replayedWorld, Disk.dropWal, SortedMap.find?_erase, Disk.openWal_find?, boot.next] at found
    split at found
    · cases found
    · split at found
      · rename_i same
        exact .inl same
      · exact boot.numbers id (SortedMap.mem_keys_iff.mpr ⟨records, found⟩) }

theorem wp_flushRecovered (faults : WriteFaults may) (boot : Bootstrapped shape Loggable accepts world)
    {post : Post Error (World EntryFile) Unit}
    (ok : ∀ after, Settled shape Loggable accepts world.engine.walWriter (oldWalFiles world) after → post.ok () after)
    (err : ∀ error after, Fallible may → Closed shape Loggable accepts after.disk → post.err error after)
    (crash : ∀ after, Closed shape Loggable accepts after.disk → post.crash after) :
    wp may (flushRecovered (entryFormat shape)) post (replayedWorld world (walRecords world.disk)) := by
  have memtable := replayed_new world.engine.memtableSize (walRecords world.disk)
  rw [← boot.blank] at memtable
  have sized := memtable.size_pos_iff fun record member => (boot.toClosed.logged record member).filled
  refine wp_getState_bind ?_
  split
  · rename_i holds
    have filled := sized.mp holds
    refine wp_flush_filled faults.removes boot.replayed filled ?_ ?_ (fun after holds _ => crash after holds)
    · intro versionSet info quiet files
      exact ok _ (boot.settled_flushed filled quiet files)
    · intro error after failed unflushed
      exact err error after failed (boot.replayed.stopped_closed filled unflushed)
  · rename_i empty
    have none := not_not.mp (mt sized.mpr empty)
    exact wp_pure (ok _ (boot.settled_empty none))

theorem wp_recover (faults : WriteFaults may) (boot : Bootstrapped shape Loggable accepts world)
    {post : Post Error (World EntryFile) Nat}
    (ok : ∀ found after, Durable shape Loggable accepts after → Tight after → post.ok found after)
    (err : ∀ error after, Fallible may → Closed shape Loggable accepts after.disk → post.err error after)
    (crash : ∀ after, Closed shape Loggable accepts after.disk → post.crash after) :
    wp may (recover (entryFormat shape)) post world := by
  refine wp_getState_bind ?_
  change wp may (if oldWalFiles world = [] then _ else _) post world
  split
  · rename_i none
    have records : walRecords world.disk = [] := by rw [← boot.oldRecords, none]; rfl
    have same : replayedWorld world (walRecords world.disk) = world := by rw [records]; rfl
    have empty : (replayedWorld world (walRecords world.disk)).engine.activeMemtable.count = 0 := by
      rw [same, boot.blank]
      rfl
    have settled := boot.settled_empty empty
    rw [same, none] at settled
    exact wp_pure (ok 0 world settled.durable.1 settled.durable.2)
  · refine wp_bind (wp_replaySegments faults (oldWalFiles world) 0 ?_ ?_ ?_)
    · intro found
      rw [boot.found fun _ => Loggable.fits]
      refine wp_bind (wp_flushRecovered faults boot ?_ err crash)
      intro after settled
      refine wp_bind (wp_forEach (fun remaining after => (∀ segment ∈ remaining, segment.1 < world.engine.walWriter) ∧
        Settled shape Loggable accepts world.engine.walWriter remaining after) ?_ ?_ ?_)
      · refine ⟨?_, settled⟩
        intro segment member
        have older := (List.mem_filter.mp member).2
        simpa [boot.next] using older
      · intro after invariant
        obtain ⟨durable, tight⟩ := invariant.2.durable
        refine wp_bind (wp_of_run (fun script => onEngine_run _ script _) ?_)
        exact wp_pure (ok _ _ { durable with } tight)
      · intro segment remaining after invariant
        obtain ⟨older, settled⟩ := invariant
        refine wp_call ?_ ?_ (fun _ => crash _ settled.toClosed)
        · exact ⟨fun other member => older other (by simp [member]), settled.dropWal (older segment (by simp))⟩
        · exact fun failed => absurd failed faults.removes
    · intro error after failed same
      exact err error after failed (same ▸ boot.toClosed)
    · intro after same
      exact crash after (same ▸ boot.toClosed)

/-- The file map that `open` builds from the footers it read. -/
def foundFiles (metas : List SSTableMeta) : SortedMap SSTableId SSTableMeta :=
  SortedMap.empty.insertMany (metas.map fun table => (table.id, table))

theorem foundFiles_find? {metas : List SSTableMeta} {id : SSTableId} {row : SSTableMeta}
    (found : (foundFiles metas).find? id = some row) : row ∈ metas ∧ row.id = id := by
  rw [foundFiles, SortedMap.insertMany_find?, SortedMap.find?_empty, Option.or_none] at found
  have member := Assoc.mem_of_find? found
  rw [List.mem_reverse] at member
  obtain ⟨table, held, same⟩ := List.mem_map.mp member
  cases same
  exact ⟨held, rfl⟩

theorem foundFiles_isSome {metas : List SSTableMeta} {table : SSTableMeta} (member : table ∈ metas) :
    ∃ row, (foundFiles metas).find? table.id = some row := by
  rw [foundFiles, SortedMap.insertMany_find?, SortedMap.find?_empty, Option.or_none]
  cases found : Assoc.last? (metas.map fun table => (table.id, table)) table.id with
  | some row => exact ⟨row, rfl⟩
  | none =>
    have missing := Assoc.last?_eq_none_iff.mp found (table.id, table) (List.mem_map.mpr ⟨table, member, rfl⟩)
    exact absurd rfl missing

/-- A footer that was read from an accepted file of the directory. -/
def ReadFrom {F : Type} (format : TableFormat F) (disk : Disk F) (id : SSTableId) (row : SSTableMeta) : Prop :=
  ∃ file info, disk.sst.find? id = some file ∧ format.create file = .ok info ∧ row = tableMeta id info

theorem ReadFrom.named {F : Type} {format : TableFormat F} {disk : Disk F} {id : SSTableId} {row : SSTableMeta}
    (read : ReadFrom format disk id row) : row.id = id := by
  obtain ⟨_, _, _, _, same⟩ := read
  exact same ▸ rfl

/-- The state that `open` hands to recovery. -/
def bootWorld {F : Type} (config : Config) (disk : Disk F) (metas : List SSTableMeta) : World F :=
  ⟨disk.openWal (highestOf disk.wal.keys + 1), bootstrap config disk.wal.keys disk.sst.keys metas⟩

/-- The memtable that recovery builds from the log. -/
def recoveredMemtable {F : Type} (config : Config) (disk : Disk F) : Memtable :=
  (foundRecords disk.wal.bindings).foldl replayRecord (.new config.memtableSize)

/-- Without faults `open` is the reading of the footers and then recovery. -/
theorem open_run {F : Type} {format : TableFormat F} {config : Config} {disk : Disk F} {metas : List SSTableMeta}
    {rest : Script Call} {found : Nat} {after : World F}
    (reads : (mapEach disk.sst.keys fun id => do
      let info ← readTable format (fun disk => disk) id
      return tableMeta id info).run .calm disk = (.ok metas, .calm, disk))
    (recovers : (recover format).run .calm (bootWorld config disk metas) = (.ok found, rest, after)) :
    (Engine.open format config).run .calm disk = (.ok after.engine, rest, after.disk) := by
  have entered : World.mk (disk.openWal (highestOf disk.wal.keys + 1)) (bootstrap config disk.wal.keys
      (disk.openWal (highestOf disk.wal.keys + 1)).sst.keys metas) = bootWorld config disk metas := by
    rw [Disk.openWal_sst, bootWorld]
  rw [← entered] at recovers
  have recovered : (nested (fun opened => World.mk opened (bootstrap config disk.wal.keys opened.sst.keys metas))
      World.disk (recover format)).run .calm (disk.openWal (highestOf disk.wal.keys + 1)) =
        (.ok (found, after), rest, after.disk) := nested_run_ok recovers
  refine (bind_run_ok (getState_run _ _)).trans ((bind_run_ok reads).trans ?_)
  exact (bind_run_ok (call_run_done _ _ _ rfl)).trans (bind_run_ok recovered)

/-- Every segment of the directory is an old one to the engine that opens it. -/
theorem oldWalFiles_boot {F : Type} (config : Config) (disk : Disk F) (metas : List SSTableMeta) :
    oldWalFiles (bootWorld config disk metas) = disk.wal.bindings := by
  have below : ∀ id ∈ disk.wal.keys, id < highestOf disk.wal.keys + 1 :=
    fun id member => Nat.lt_succ_of_le (le_highestOf member)
  have fresh : disk.wal.find? (highestOf disk.wal.keys + 1) = none :=
    SortedMap.find?_eq_none_iff.mpr fun member => absurd (below _ member) (lt_irrefl _)
  have opened : (disk.openWal (highestOf disk.wal.keys + 1)).wal.bindings =
      disk.wal.bindings ++ [(highestOf disk.wal.keys + 1, [])] := by
    simp only [Disk.openWal, fresh]
    exact SortedMap.insert_bindings_above [] below
  have kept : disk.wal.bindings.filter (fun segment => segment.1 < highestOf disk.wal.keys + 1) =
      disk.wal.bindings := by
    refine List.filter_eq_self.mpr fun segment member => ?_
    exact decide_eq_true (below segment.1 (List.mem_map_of_mem member))
  rw [oldWalFiles]
  change (disk.openWal (highestOf disk.wal.keys + 1)).wal.bindings.filter
    (fun segment => segment.1 < highestOf disk.wal.keys + 1) = _
  rw [opened, List.filter_append, kept]
  simp

theorem forall₂_right {α β : Type} {relate : α → β → Prop} {left : List α} {right : List β}
    (related : List.Forall₂ relate left right) {item : β} (member : item ∈ right) : ∃ first ∈ left, relate first item := by
  induction related with
  | nil => simp at member
  | cons here _ ih =>
    rcases List.mem_cons.mp member with same | later
    · exact ⟨_, by simp, same ▸ here⟩
    · obtain ⟨first, held, holds⟩ := ih later
      exact ⟨first, by simp [held], holds⟩

theorem forall₂_left {α β : Type} {relate : α → β → Prop} {left : List α} {right : List β}
    (related : List.Forall₂ relate left right) {item : α} (member : item ∈ left) : ∃ second ∈ right, relate item second := by
  induction related with
  | nil => simp at member
  | cons here _ ih =>
    rcases List.mem_cons.mp member with same | later
    · exact ⟨_, by simp, same ▸ here⟩
    · obtain ⟨second, held, holds⟩ := ih later
      exact ⟨second, by simp [held], holds⟩

theorem ReadFrom.whole {disk : Disk EntryFile} {id : SSTableId} {row : SSTableMeta}
    (read : ReadFrom (entryFormat shape) disk id row) :
    ∃ estimatedKeys entries, disk.sst.find? id = some (.whole estimatedKeys entries) ∧ estimatedKeys ≠ 0 := by
  obtain ⟨file, info, present, accepted, same⟩ := read
  obtain ⟨estimatedKeys, entries, whole, positive⟩ := entryFormat_create_ok shape accepted
  exact ⟨estimatedKeys, entries, whole ▸ present, positive⟩

theorem foundFiles_read {F : Type} {format : TableFormat F} {disk : Disk F} {metas : List SSTableMeta}
    (read : List.Forall₂ (ReadFrom format disk) disk.sst.keys metas) {id : SSTableId} {row : SSTableMeta}
    (found : (foundFiles metas).find? id = some row) : ReadFrom format disk id row := by
  obtain ⟨member, same⟩ := foundFiles_find? found
  obtain ⟨key, _, from_⟩ := forall₂_right read member
  rw [← same, from_.named]
  exact from_

/-- Exactly the tables of the directory are live. -/
theorem foundFiles_keys {F : Type} {format : TableFormat F} {disk : Disk F} {metas : List SSTableMeta}
    (read : List.Forall₂ (ReadFrom format disk) disk.sst.keys metas) (id : SSTableId) :
    id ∈ (foundFiles metas).keys ↔ id ∈ disk.sst.keys := by
  constructor
  · intro member
    obtain ⟨row, found⟩ := SortedMap.mem_keys_iff.mp member
    obtain ⟨_, _, present, _⟩ := foundFiles_read read found
    exact SortedMap.mem_keys_iff.mpr ⟨_, present⟩
  · intro member
    obtain ⟨row, held, from_⟩ := forall₂_left read member
    rw [← from_.named]
    exact SortedMap.mem_keys_iff.mpr (foundFiles_isSome held)

theorem stocked_boot {disk : Disk EntryFile} (config : Config) {metas : List SSTableMeta}
    (read : List.Forall₂ (ReadFrom (entryFormat shape) disk) disk.sst.keys metas) :
    Stocked (bootWorld config disk metas) where
  quiet := VersionSet.new_quiet _
  named := fun id row found => (foundFiles_read read found).named
  stored := by
    intro id row found
    obtain ⟨estimatedKeys, entries, present, positive⟩ := (foundFiles_read read found).whole
    exact ⟨estimatedKeys, entries, by simpa [bootWorld] using present, positive⟩
  below := by
    intro id member
    exact Nat.lt_succ_of_le (le_highestOf ((foundFiles_keys read id).mp member))

theorem bootstrapped {disk : Disk EntryFile} (closed : Closed shape logs accepts disk) {config : Config}
    (idle : config.policy.NeverPicks) {metas : List SSTableMeta}
    (read : List.Forall₂ (ReadFrom (entryFormat shape) disk) disk.sst.keys metas) :
    Bootstrapped shape logs accepts (bootWorld config disk metas) where
  toStocked := stocked_boot config read
  toClosed := closed.openWal _
  numbered := by
    intro id member
    have held : id ∈ disk.sst.keys := by simpa [bootWorld] using member
    exact Nat.lt_succ_of_le (le_highestOf held)
  all := by
    apply SortedMap.ext_find?
    intro id
    rw [liveLayers_find?, diskLayers_find?]
    change ((foundFiles metas).find? id).map _ = _
    simp only [bootWorld, Disk.openWal_sst, entriesAt]
    cases found : (foundFiles metas).find? id with
    | some row =>
      obtain ⟨_, _, present, _⟩ := (foundFiles_read read found).whole
      simp [present]
    | none =>
      have missing := SortedMap.find?_eq_none_iff.mp found
      rw [foundFiles_keys read] at missing
      simp [SortedMap.find?_eq_none_iff.mpr missing]
  blank := rfl
  idle := idle
  positive := Nat.succ_pos _
  next := rfl
  own := by
    have fresh : disk.wal.find? (highestOf disk.wal.keys + 1) = none := by
      apply SortedMap.find?_eq_none_iff.mpr
      intro member
      exact absurd (le_highestOf member) (by omega)
    simp [bootWorld, bootstrap, Disk.openWal_find?, fresh]
  last := by
    intro id member
    obtain ⟨records, found⟩ := SortedMap.mem_keys_iff.mp member
    simp only [bootWorld, Disk.openWal_find?] at found
    split at found
    · rename_i same
      exact same.le
    · exact (le_highestOf (SortedMap.mem_keys_iff.mpr ⟨records, found⟩)).trans (Nat.le_succ _)

/-- Opening a directory gives an engine that shows what the directory says. -/
theorem wp_open (faults : WriteFaults may) {disk : Disk EntryFile} (closed : Closed shape Loggable accepts disk)
    {config : Config} (idle : config.policy.NeverPicks) {post : Post Error (Disk EntryFile) Dazzle}
    (ok : ∀ engine after, Durable shape Loggable accepts ⟨after, engine⟩ → Tight ⟨after, engine⟩ → post.ok engine after)
    (err : ∀ error after, Fallible may ∨ ¬ AllWhole disk → Closed shape Loggable accepts after → post.err error after)
    (crash : ∀ after, Closed shape Loggable accepts after → post.crash after) :
    wp may (Engine.open (entryFormat shape) config) post disk := by
  refine wp_getState_bind (wp_bind (wp_mapEach (ReadFrom (entryFormat shape) disk) ?_ ?_))
  · intro id member
    refine wp_bind (wp_readTable ?_ ?_ (fun _ => crash _ closed))
    · intro file info present accepted
      exact wp_pure ⟨rfl, file, info, present, accepted, rfl⟩
    · intro error reason
      refine err error _ (reason.imp_right ?_) closed
      intro missing whole
      obtain ⟨file, present⟩ := SortedMap.mem_keys_iff.mp member
      obtain ⟨estimatedKeys, entries, shown, positive⟩ := whole id file present
      exact missing ⟨file, _, present, shown ▸ entryFormat_create_whole shape entries positive⟩
  · intro metas read
    refine wp_call_bind ?_ (fun failed => err _ _ (.inl ⟨_, by decide, failed⟩) closed) (fun _ => crash _ closed)
    have boot := bootstrapped closed idle read
    have entered : World.mk (disk.openWal (highestOf disk.wal.keys + 1)) (bootstrap config disk.wal.keys
        (disk.openWal (highestOf disk.wal.keys + 1)).sst.keys metas) = bootWorld config disk metas := by
      rw [Disk.openWal_sst, bootWorld]
    refine wp_bind (wp_nested ?_)
    rw [entered]
    refine wp_recover faults boot ?_ ?_ ?_
    · intro found after durable tight
      exact wp_pure (ok after.engine after.disk durable tight)
    · exact fun error after failed holds => err error after.disk (.inl failed) holds
    · exact fun after holds => crash after.disk holds

end

end Engine

end Enigma
