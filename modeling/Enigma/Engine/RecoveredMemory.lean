import Enigma.Engine.PartialReplay

/-! What recovery leaves in memory. It flushes the replayed memtable when the byte
estimate is not zero, and removes the segments in any case. The estimate does not
see a deletion of the zero-length key: on its own, that stays in memory only. -/

namespace Enigma

/-- A record as the engine logs it: a put with a value, or a delete. -/
def WalRecord.Issued (record : WalRecord) : Prop :=
  record.opType = .putRow ∧ record.value ≠ [] ∨ record.opType = .deleteRow ∧ record.value = []

/-- Nothing but records of the zero-length key, the last of them a delete. -/
def EmptyKeyDeleted (records : List WalRecord) : Prop :=
  (∀ record ∈ records, record.key = []) ∧ ∃ last ∈ records.getLast?, last.opType = .deleteRow

namespace Engine

open Prog

theorem last?_getLast {records : List WalRecord} {last : WalRecord} (final : last ∈ records.getLast?) :
    Assoc.last? (records.map WalRecord.entry) last.key = some last.entry.2 := by
  obtain ⟨earlier, rfl⟩ := List.getLast?_eq_some_iff.mp final
  have shape : last.entry = (last.key, last.entry.2) := Prod.ext last.entry_key rfl
  rw [List.map_append, List.map_singleton, shape, Assoc.last?_concat]
  simp

theorem Replayed.nil_of_count {memtable : Memtable} {records : List WalRecord} (replayed : Replayed memtable records)
    (zero : memtable.count = 0) : records = [] := by
  refine List.eq_nil_iff_forall_not_mem.mpr fun record member => ?_
  obtain ⟨value, found⟩ := last?_isSome member
  have none := SortedMap.size_eq_zero_iff.mp zero record.key
  exact absurd (found.symm.trans ((replayed.get _).symm.trans none)) (by simp)

/-- A replayed memtable that holds something and looks empty. -/
theorem Replayed.looks_empty_iff {memtable : Memtable} {records : List WalRecord} (replayed : Replayed memtable records)
    (issued : ∀ record ∈ records, record.Issued) :
    memtable.approximateSize = 0 ∧ memtable.count ≠ 0 ↔ EmptyKeyDeleted records := by
  rw [Memtable.approximateSize_eq_zero_iff replayed.accounted]
  constructor
  · rintro ⟨bare, filled⟩
    have keys : ∀ record ∈ records, record.key = [] := by
      intro record member
      obtain ⟨value, found⟩ := last?_isSome member
      exact (bare record.key value ((replayed.get _).trans found)).1
    refine ⟨keys, ?_⟩
    cases final : records.getLast? with
    | none =>
      have none := List.getLast?_eq_none_iff.mp final
      refine absurd (SortedMap.size_eq_zero_iff.mpr fun key => ?_) filled
      have empty := replayed.get key
      rw [none] at empty
      exact empty
    | some last =>
      have data := (bare last.key _ ((replayed.get _).trans (last?_getLast final))).2
      refine ⟨last, rfl, ?_⟩
      rcases issued last (List.mem_of_getLast? final) with ⟨put, value⟩ | ⟨deleted, _⟩
      · have other : last.opType ≠ .deleteRow := by simp [put, WalOpType.putRow, WalOpType.deleteRow]
        simp only [WalRecord.entry, other, ↓reduceIte] at data
        exact absurd data value
      · exact deleted
  · rintro ⟨keys, last, final, deleted⟩
    have latest := (replayed.get _).trans (last?_getLast final)
    rw [keys last (List.mem_of_getLast? final)] at latest
    refine ⟨?_, ?_⟩
    · intro key value found
      obtain ⟨record, member, same⟩ := last?_mem ((replayed.get key).symm.trans found)
      have empty : key = [] := same.symm.trans (keys record member)
      subst empty
      have stored := Option.some.inj (found.symm.trans latest)
      refine ⟨rfl, ?_⟩
      rw [stored]
      simp [WalRecord.entry, deleted]
    · intro zero
      have none := SortedMap.size_eq_zero_iff.mp zero []
      exact absurd (latest.symm.trans none) (by simp)

section

variable {F : Type} {format : TableFormat F} {may : Call → Fate → Prop}

theorem memtable_frame (memtable : Memtable) : Frame fun world : World F => world.engine.activeMemtable = memtable :=
  ⟨fun _ same => same, fun _ _ same => same, fun _ _ _ _ same _ _ => same⟩

theorem memtable_cleanUp (memtable : Memtable) (segments : List (Nat × List WalRecord)) (highest : Nat) :
    Preserves may (fun world : World F => world.engine.activeMemtable = memtable) (cleanUp segments highest) := by
  refine .bind (.forEach fun _ => .call fun _ same => same) fun _ world same => ?_
  exact wp_bind (wp_of_run (fun script => onEngine_run _ script _) (wp_pure same))

/-- Once the table is published the memtable is dropped for good. -/
theorem wp_settle_emptied (segments : List (Nat × List WalRecord)) (found : Nat × Nat) (world : World F) :
    wp may (settle format segments found)
      ⟨fun _ after => after.engine.activeMemtable.count = 0, fun _ _ => True, fun _ => True⟩ world := by
  refine wp_bind (wp_bind (wp_of_run (fun script => onEngine_run _ script _) ?_))
  refine wp_call ?_ (fun _ => trivial) (fun _ => trivial)
  have rest : Preserves may (fun after : World F => after.engine.activeMemtable = .new world.engine.memtableSize) (do
      let _ ← attempt (doCompactWork format)
      cleanUp segments found.1) :=
    .bind (.attempt ((memtable_frame _).doCompactWork format)) fun _ => memtable_cleanUp _ segments found.1
  refine wp_mono (rest _ rfl) ?_ (fun _ _ _ => trivial) (fun _ _ => trivial)
  exact fun _ after empty => congrArg Memtable.count empty

end

section

variable {shape : TableShape} {config : Config} {disk : Disk EntryFile} {metas : List SSTableMeta}
  {script rest : Script Call} {highest : Nat} {after : World EntryFile}

/-- Recovery goes through a state in which every segment is still there and the
last replayed record of each key is in a live table. Only from there on does it
unlink. -/
def Secured (shape : TableShape) (script : Script Call) (world : World EntryFile) : Prop :=
  ∃ found left between,
    (replayAndPublish (entryFormat shape) (oldWalFiles world)).run script world = (.ok found, left, between) ∧
    (recover (entryFormat shape)).run script world =
      (settle (entryFormat shape) (oldWalFiles world) found).run left between ∧
    (∀ segment ∈ oldWalFiles world, between.disk.wal.find? segment.1 = some segment.2) ∧
    ∀ key value, Assoc.last? ((heard script (oldWalFiles world)).map WalRecord.entry) key = some value →
      ∃ id ∈ between.engine.version.files.keys, Assoc.find? (entriesAt between.disk id) key = some value

/-- A replayed memtable that looks empty stays. -/
theorem kept_of_unsized {world : World EntryFile}
    (unsized : (replayedWorld world (heard script (oldWalFiles world))).engine.activeMemtable.approximateSize = 0)
    (present : oldWalFiles world ≠ [])
    (recovers : (recover (entryFormat shape)).run script world = (.ok highest, rest, after)) :
    after.engine.activeMemtable = (replayedWorld world (heard script (oldWalFiles world))).engine.activeMemtable := by
  obtain ⟨seen, left, flushed, between, _, flushes, cleans⟩ := recover_returned present recovers
  rw [flushRecovered, bind_run_ok (getState_run _ _), if_neg (by omega)] at flushes
  cases flushes
  have allowed : Allowed (fun _ _ => True) left := fun _ _ => trivial
  exact wp_run (memtable_cleanUp _ _ _ _ rfl) allowed cleans

/-- A replayed memtable that does not look empty is published, and then dropped. -/
theorem secured_of_sized {world : World EntryFile} (quiet : world.engine.versionSet.Quiet)
    (replayed : Replayed (replayedWorld world (heard script (oldWalFiles world))).engine.activeMemtable
      (heard script (oldWalFiles world)))
    (sized : 0 < (replayedWorld world (heard script (oldWalFiles world))).engine.activeMemtable.approximateSize)
    (filled : (replayedWorld world (heard script (oldWalFiles world))).engine.activeMemtable.count ≠ 0)
    (present : oldWalFiles world ≠ [])
    (recovers : (recover (entryFormat shape)).run script world = (.ok highest, rest, after)) :
    after.engine.activeMemtable.count = 0 ∧ Secured shape script world := by
  obtain ⟨seen, left, flushed, between, replays, flushes, cleans⟩ := recover_returned present recovers
  obtain ⟨newWalSeq, remaining, published, publishes, settles⟩ := flushRecovered_returned sized filled flushes
  have whole : (settle (entryFormat shape) (oldWalFiles world) (seen, newWalSeq)).run remaining published =
      (.ok highest, rest, after) := by
    rw [settle_eq, bind_run_ok settles]
    exact cleans
  have allowed : Allowed (fun _ _ => True) remaining := fun _ _ => trivial
  have settled : (replayedWorld world (heard script (oldWalFiles world))).engine.versionSet.Quiet := quiet
  obtain ⟨versionSet, info, _, files, _, reached⟩ := publishMemtable_returned settled filled publishes
  subst reached
  refine ⟨wp_run (wp_settle_emptied _ _ _) allowed whole, (seen, newWalSeq), remaining,
    publishedWorld shape (replayedWorld world (heard script (oldWalFiles world))) versionSet, ?_, ?_, ?_, ?_⟩
  · rw [replayAndPublish, bind_run_ok replays, bind_run_ok publishes, pure_run]
  · rw [recovers, whole]
  · exact fun segment old => publishedWorld_segments _ versionSet old
  · intro key value found
    refine ⟨world.engine.nextSstSeq, ?_, ?_⟩
    · change _ ∈ versionSet.currentVersion.files.keys
      rw [files]
      exact SortedMap.mem_keys_insert.mpr (.inl rfl)
    · exact (congrArg (fun entries => Assoc.find? entries key) (publishedWorld_table versionSet)).trans
        ((replayed.get key).trans found)

/-- Recovery leaves nothing in memory only, unless all it replays are records of
the zero-length key and the last one deletes it. -/
theorem recover_empties_memory_iff
    (issued : ∀ record ∈ foundRecords (oldWalFiles (bootWorld config disk metas)), record.Issued)
    (recovers : (recover (entryFormat shape)).run script (bootWorld config disk metas) = (.ok highest, rest, after)) :
    after.engine.activeMemtable.count = 0 ∧ (heard script (oldWalFiles (bootWorld config disk metas)) ≠ [] →
        Secured shape script (bootWorld config disk metas)) ↔
      ¬ EmptyKeyDeleted (heard script (oldWalFiles (bootWorld config disk metas))) := by
  have quiet : (bootWorld config disk metas).engine.versionSet.Quiet := VersionSet.new_quiet _
  have blank : (bootWorld config disk metas).engine.activeMemtable = .new config.memtableSize := rfl
  generalize bootWorld config disk metas = world at *
  have replayed := replayed_new config.memtableSize (heard script (oldWalFiles world))
  rw [← blank] at replayed
  have looks := replayed.looks_empty_iff fun record member => issued record ((heard_sublist script _).subset member)
  by_cases present : oldWalFiles world = []
  · rw [recover_eq, if_pos present] at recovers
    cases recovers
    rw [present] at looks ⊢
    simp [heard, hearing, blank, EmptyKeyDeleted, Memtable.new, Memtable.count, SortedMap.size, SortedMap.empty]
  · by_cases unsized :
        (replayedWorld world (heard script (oldWalFiles world))).engine.activeMemtable.approximateSize = 0
    · rw [kept_of_unsized unsized present recovers, ← looks]
      constructor
      · exact fun emptied held => held.2 emptied.1
      · intro shown
        have zero := not_not.mp fun filled => shown ⟨unsized, filled⟩
        exact ⟨zero, fun some => absurd (replayed.nil_of_count zero) some⟩
    · have sized := Nat.pos_of_ne_zero unsized
      have filled := replayed.filled_of_sized sized
      have secured := secured_of_sized quiet replayed sized filled present recovers
      exact ⟨fun _ held => unsized (looks.mpr held).1, fun _ => ⟨secured.1, fun _ => secured.2⟩⟩

end

/-- The directory after a client of a new engine has made some removals. -/
def removedDisk (keys : List Key) : Disk EntryFile :=
  (keys.foldl (fun world key => ((remove (entryFormat .plain) key 0).run .calm world).2.2)
    ⟨⟨.empty, SortedMap.empty.insert 1 []⟩, bootstrap restingConfig [] [] []⟩).disk

/-- With a second key the deletion of the zero-length one is flushed. -/
theorem recover_empties_memory_two_keys :
    ((recover (entryFormat .plain)).run .calm (bootWorld restingConfig (removedDisk [[1], []]) [])).1 = .ok 2 ∧
    ((recover (entryFormat .plain)).run .calm
      (bootWorld restingConfig (removedDisk [[1], []]) [])).2.2.engine.activeMemtable.count = 0 ∧
    Secured .plain .calm (bootWorld restingConfig (removedDisk [[1], []]) []) := by
  have segments : oldWalFiles (bootWorld restingConfig (removedDisk [[1], []]) []) =
      [(1, [⟨.deleteRow, 0, 1, [1], []⟩, ⟨.deleteRow, 0, 2, [], []⟩])] := by decide +kernel
  have found : foundRecords (oldWalFiles (bootWorld restingConfig (removedDisk [[1], []]) [])) =
      [⟨.deleteRow, 0, 1, [1], []⟩, ⟨.deleteRow, 0, 2, [], []⟩] := by
    rw [segments]
    exact foundRecords_of_fits (by decide)
  have issued : ∀ record ∈ foundRecords (oldWalFiles (bootWorld restingConfig (removedDisk [[1], []]) [])),
      record.Issued := by
    rw [found]
    simp [WalRecord.Issued]
  have all : heard .calm (oldWalFiles (bootWorld restingConfig (removedDisk [[1], []]) [])) =
      [⟨.deleteRow, 0, 1, [1], []⟩, ⟨.deleteRow, 0, 2, [], []⟩] := by
    rw [segments]
    decide +kernel
  have returns : ((recover (entryFormat .plain)).run .calm
      (bootWorld restingConfig (removedDisk [[1], []]) [])).1 = .ok 2 := by decide +kernel
  rcases result : (recover (entryFormat .plain)).run .calm (bootWorld restingConfig (removedDisk [[1], []]) []) with
    ⟨exit, rest, after⟩
  rw [result] at returns
  cases returns
  have emptied := (recover_empties_memory_iff issued result).mpr (by simp [all, EmptyKeyDeleted])
  exact ⟨rfl, emptied.1, emptied.2 (by simp [all])⟩

/-- A client removes the zero-length key, and the process dies. Recovery replays
the removal, flushes nothing and unlinks the segment. -/
theorem lone_removal_unflushed :
    ((recover (entryFormat .plain)).run .calm (bootWorld restingConfig (removedDisk [[]]) [])).1 = .ok 1 ∧
    ((recover (entryFormat .plain)).run .calm
      (bootWorld restingConfig (removedDisk [[]]) [])).2.2.engine.activeMemtable.count = 1 ∧
    ((recover (entryFormat .plain)).run .calm
      (bootWorld restingConfig (removedDisk [[]]) [])).2.2.engine.version.files.keys = [] ∧
    oldWalFiles (bootWorld restingConfig (removedDisk [[]]) []) = [(1, [⟨.deleteRow, 0, 1, [], []⟩])] ∧
    ((recover (entryFormat .plain)).run .calm
      (bootWorld restingConfig (removedDisk [[]]) [])).2.2.disk.wal.find? 1 = none := by
  decide +kernel

end Engine

end Enigma
