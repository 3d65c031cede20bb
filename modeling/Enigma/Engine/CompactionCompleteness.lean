import Enigma.Engine.ReadPath

/-! Compaction when block reads fail. The merge stops at the first input that
cannot be read on, and the compactor does not look at its status: what was
merged so far becomes a table, is installed, and replaces the inputs. -/

namespace Enigma

namespace Engine

open Prog

/-- A pattern of failing block reads, by table and block. -/
def readFaults (faults : SSTableId → Nat → Bool) : Call → Fate
  | .readBlock id block => if faults id block then .failed else .done
  | _ => .done

theorem readFaults_benign (faults : SSTableId → Nat → Bool) : Benign (readFaults faults) where
  done := by
    intro kind plain
    cases kind with
    | readBlock id block => exact absurd rfl (plain id block)
    | _ => rfl
  returns := by
    intro id block
    simp only [readFaults]
    split <;> simp

/-- Some block of some input cannot be read. -/
def SomeUnread (shape : TableShape) (disk : Disk EntryFile) (inputs : List SSTableId)
    (faults : SSTableId → Nat → Bool) : Prop :=
  ∃ id ∈ inputs, ∃ block < (shape.blocks (entriesAt disk id)).length, faults id block

/-- One entry for each key of the inputs, of the highest sequence, except where
that is a tombstone to be dropped. -/
structure CompleteMerge (entries output : List Entry) (full : Bool) : Prop where
  ascending : Assoc.Ascending output
  newest : ∀ entry ∈ output, entry ∈ entries ∧ ¬ (entry.2.isTombstone ∧ full) ∧
    ∀ other ∈ entries, other.1 = entry.1 → other.2.sequence ≤ entry.2.sequence
  covers : ∀ entry ∈ entries, (∃ kept ∈ output, kept.1 = entry.1) ∨
    full = true ∧ ∃ winner ∈ entries, winner.1 = entry.1 ∧ winner.2.isTombstone ∧
      ∀ other ∈ entries, other.1 = entry.1 → other.2.sequence ≤ winner.2.sequence

def inputEntries (disk : Disk EntryFile) (inputs : List SSTableId) : List Entry :=
  inputs.flatMap (entriesAt disk)

/-- A compaction that reports success is complete, and a task whose inputs could
not all be read neither publishes an output nor deletes an input. -/
def ReportsHonestly (shape : TableShape) (world : World EntryFile) (task : CompactionTask)
    (faults : SSTableId → Nat → Bool) : Prop :=
  (∀ id, ((execute (entryFormat shape) task).run (.always (readFaults faults)) world).1 = .ok id →
    ∃ estimatedKeys entries,
      ((execute (entryFormat shape) task).run (.always (readFaults faults)) world).2.2.disk.sst.find? task.outputId =
        some (.whole estimatedKeys entries) ∧
      CompleteMerge (inputEntries world.disk task.inputs) entries task.canDropTombstone) ∧
  (SomeUnread shape world.disk task.inputs faults →
    ((runTask (entryFormat shape) task).run (.always (readFaults faults)) world).2.2.engine.version.files =
      world.engine.version.files ∧
    ∀ id ∈ task.inputs,
      ((runTask (entryFormat shape) task).run (.always (readFaults faults)) world).2.2.disk.sst.find? id =
        world.disk.sst.find? id)

section

variable {shape : TableShape} {world : World EntryFile} {task : CompactionTask} {faults : SSTableId → Nat → Bool}

theorem mergedEntries_complete {inputs : List SSTableId} (full : Bool) (whole : ScansWhole shape world.disk inputs)
    (ascending : ∀ id ∈ inputs, Assoc.Ascending (entriesAt world.disk id)) :
    CompleteMerge (inputEntries world.disk inputs) (mergedEntries shape world.disk inputs full) full := by
  have same : mergedEntries shape world.disk inputs full =
      compactedEntries (inputs.map fun id => ⟨entriesAt world.disk id, none⟩) full := by
    rw [mergedEntries, List.map_congr_left fun id member => by rw [whole id member]]
  rw [same]
  have merged := (merge_of_ascending ascending).congr (fun entry =>
    (mem_delivered.trans List.mem_flatMap.symm : _ ↔ entry ∈ inputEntries world.disk inputs))
  refine ⟨List.Pairwise.filter _ merged.ascending, ?_, ?_⟩
  · intro entry member
    obtain ⟨delivered, kept⟩ := List.mem_filter.mp member
    obtain ⟨held, highest⟩ := merged.newest entry delivered
    refine ⟨held, ?_, highest⟩
    intro both
    simp [both.1, both.2] at kept
  · intro entry held
    obtain ⟨winner, delivered, same⟩ := merged.covers entry held
    by_cases drop : winner.2.isTombstone ∧ full
    · right
      obtain ⟨present, highest⟩ := merged.newest winner delivered
      exact ⟨drop.2, winner, present, same, drop.1, fun other here equal => highest other here (equal.trans same.symm)⟩
    · left
      refine ⟨winner, List.mem_filter.mpr ⟨delivered, ?_⟩, same⟩
      have keep : (winner.2.isTombstone && full) = false := by
        rw [Bool.eq_false_iff]
        simpa using drop
      simp [keep]

theorem possibleKeys_pos {disk : Disk EntryFile} {inputs : List SSTableId}
    (unread : SomeUnread shape disk inputs faults) : possibleKeys disk inputs ≠ 0 := by
  obtain ⟨id, member, block, inside, _⟩ := unread
  have entries : (entriesAt disk id).length ≠ 0 := by
    intro empty
    rw [List.length_eq_zero_iff.mp empty, shape.blocks_nil] at inside
    exact Nat.not_lt_zero _ inside
  intro zero
  exact entries (List.sum_eq_zero_iff_forall_eq_nat.mp zero _ (List.mem_map.mpr ⟨id, member, rfl⟩))

/-- Input tables as compaction meets them: live, in full on disk, accepted by
the reader, each an ascending entry list that its iterator delivers in full; and
an output id that is none of them. -/
structure InputTables (shape : TableShape) (world : World EntryFile) (task : CompactionTask) : Prop where
  quiet : world.engine.versionSet.Quiet
  live : ∀ id ∈ task.inputs, id ∈ world.engine.version.files.keys
  readable : Readable world.disk task.inputs
  ascending : ∀ id ∈ task.inputs, Assoc.Ascending (entriesAt world.disk id)
  whole : ScansWhole shape world.disk task.inputs
  fresh : task.outputId ∉ task.inputs

/-- With an unreadable block the task still installs what it has. -/
theorem runTask_unread (tables : InputTables shape world task) (unread : SomeUnread shape world.disk task.inputs faults) :
    ∃ id ∈ task.inputs,
      ((runTask (entryFormat shape) task).run (.always (readFaults faults)) world).2.2.engine.version.files.find? id =
        none := by
  have ready := ready_of_readable shape tables.quiet tables.live tables.readable tables.fresh
  have accepted := entryFormat_create_whole shape (compactedEntries
    (task.inputs.map fun id => cursorOf (entryFormat shape) (readFaults faults) id (fileAt world.disk id))
    task.canDropTombstone) (possibleKeys_pos unread)
  rw [← outputFile_whole tables.readable] at accepted
  obtain ⟨versionSet, _, files, run⟩ := runTask_run (readFaults_benign faults) ready accepted
  obtain ⟨id, member, _⟩ := unread
  refine ⟨id, member, ?_⟩
  have different : id ≠ task.outputId := fun same => tables.fresh (same ▸ member)
  rw [run]
  simp only [compactedWorld, Dazzle.version, files, SortedMap.find?_insert, SortedMap.foldl_erase_find?]
  simp [different, member]

/-- Compaction reports honestly exactly when every block of every input can be
read. -/
theorem reports_honestly_iff (shape : TableShape) {world : World EntryFile} {task : CompactionTask}
    (tables : InputTables shape world task) (faults : SSTableId → Nat → Bool) :
    ReportsHonestly shape world task faults ↔
      ∀ id ∈ task.inputs, ∀ block < (shape.blocks (entriesAt world.disk id)).length, faults id block = false := by
  constructor
  · intro honest id member block inside
    by_contra faulty
    have unread : SomeUnread shape world.disk task.inputs faults :=
      ⟨id, member, block, inside, by simpa using faulty⟩
    obtain ⟨lost, isInput, gone⟩ := runTask_unread tables unread
    obtain ⟨row, found⟩ := SortedMap.mem_keys_iff.mp (tables.live lost isInput)
    rw [(honest.2 unread).1, found] at gone
    cases gone
  · intro readable
    have free : ∀ id ∈ task.inputs, ∀ block < (shape.blocks (entriesAt world.disk id)).length,
        readFaults faults (.readBlock id block) ≠ .failed := by
      intro id member block inside
      simp [readFaults, readable id member block inside]
    have ready := ready_of_readable shape tables.quiet tables.live tables.readable tables.fresh
    have run := execute_run (readFaults_benign faults) ready
    rw [outputFile_eq tables.readable free] at run
    refine ⟨?_, ?_⟩
    · intro id _
      refine ⟨possibleKeys world.disk task.inputs, _, ?_, mergedEntries_complete _ tables.whole tables.ascending⟩
      rw [run]
      exact withOutput_present world task _
    · intro unread
      obtain ⟨id, member, block, inside, faulty⟩ := unread
      rw [readable id member block inside] at faulty
      cases faulty

end

/-- Two flushed tables that share a key. -/
def sharedWrites : List Op :=
  [.put [1] [10] (by simp) 0, .put [2] [20] (by simp) 0, .flush, .put [1] [30] (by simp) 0, .flush]

def twoTables : World EntryFile :=
  runOps .plain
    ⟨⟨.empty, SortedMap.empty.insert 1 []⟩, bootstrap (tieredConfig 100 4 8 (1 / 2) (3 / 2)) [] [] []⟩ sharedWrites

theorem twoTables_sound : Sound twoTables := by
  have safe : SafeRun .plain ⟨⟨.empty, SortedMap.empty.insert 1 []⟩,
      bootstrap (tieredConfig 100 4 8 (1 / 2) (3 / 2)) [] [] []⟩ sharedWrites := by
    decide +kernel
  exact (runOps_sound _ (fresh_sound (open_empty (entryFormat .plain) _)).1 safe).1

theorem twoTables_inputs : InputTables .plain twoTables ⟨[1, 2], 3, true⟩ where
  quiet := twoTables_sound.quiet
  live := by decide +kernel
  readable := by
    intro id member
    rcases List.mem_pair.mp member with rfl | rfl
    · exact ⟨2, [([1], ⟨[10], false, 1⟩), ([2], ⟨[20], false, 2⟩)], by decide +kernel, by simp⟩
    · exact ⟨1, [([1], ⟨[30], false, 3⟩)], by decide +kernel, by simp⟩
  ascending := by decide +kernel
  whole := by decide +kernel
  fresh := by decide

theorem reports_honestly_two_tables : ReportsHonestly .plain twoTables ⟨[1, 2], 3, true⟩ (fun _ _ => false) :=
  (reports_honestly_iff .plain twoTables_inputs (fun _ _ => false)).mpr (fun _ _ _ _ => rfl)

/-- The only block of the older table cannot be read: the task reports success,
installs what it has of the newer one, and both are gone. -/
theorem unread_input_is_replaced : ¬ ReportsHonestly .plain twoTables ⟨[1, 2], 3, true⟩ (fun id _ => id = 1) := by
  intro honest
  have kept := (honest.2 ⟨1, by decide, 0, by decide +kernel, rfl⟩).2 1 (by decide)
  have gone : ((runTask (entryFormat .plain) ⟨[1, 2], 3, true⟩).run (.always (readFaults fun id _ => id = 1))
      twoTables).2.2.disk.sst.find? 1 = none := by
    decide +kernel
  have was : twoTables.disk.sst.find? 1 = some (.whole 2 [([1], ⟨[10], false, 1⟩), ([2], ⟨[20], false, 2⟩)]) := by
    decide +kernel
  rw [gone, was] at kept
  cases kept

end Engine

end Enigma
