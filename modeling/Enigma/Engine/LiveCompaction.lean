import Enigma.Engine.LiveTables

/-! What a compaction does to the live tables: a merge of layers into a new top
layer, and what reads see of it. -/

namespace Enigma

namespace Engine

open Prog

/-- The file under an id, where there is one. -/
def fileAt (disk : Disk EntryFile) (id : SSTableId) : EntryFile := (disk.sst.find? id).getD (.whole 0 [])

/-- What the footer of the table under an id says. -/
def infoAt (shape : TableShape) (disk : Disk EntryFile) (id : SSTableId) : TableInfo :=
  match fileAt disk id with
  | .torn _ => ⟨0, 0, 0⟩
  | .whole estimatedKeys entries =>
    ⟨shape.sizeBytes estimatedKeys entries, entries.length, highestSequence entries⟩

/-- The entries that a compaction without read failures writes. -/
def mergedEntries (shape : TableShape) (disk : Disk EntryFile) (inputs : List SSTableId) (full : Bool) : List Entry :=
  compactedEntries (inputs.map fun id => ⟨shape.delivered (entriesAt disk id), none⟩) full

/-- An iterator over each of these tables delivers it in full. -/
def ScansWhole (shape : TableShape) (disk : Disk EntryFile) (inputs : List SSTableId) : Prop :=
  ∀ id ∈ inputs, shape.delivered (entriesAt disk id) = entriesAt disk id

instance (shape : TableShape) (disk : Disk EntryFile) (inputs : List SSTableId) :
    Decidable (ScansWhole shape disk inputs) :=
  inferInstanceAs (Decidable (∀ id ∈ inputs, _))

/-- The number of keys that the writer of the output is made for. -/
def possibleKeys (disk : Disk EntryFile) (inputs : List SSTableId) : Nat :=
  (inputs.map fun id => (entriesAt disk id).length).sum

section

variable {shape : TableShape} {world : World EntryFile} {fate : Call → Fate}

/-- Tables on disk in full, under each of the ids, that the reader accepts. -/
def Readable (disk : Disk EntryFile) (ids : List SSTableId) : Prop :=
  ∀ id ∈ ids, ∃ estimatedKeys entries, disk.sst.find? id = some (.whole estimatedKeys entries) ∧ estimatedKeys ≠ 0

theorem Stocked.readable (stocked : Stocked world) {ids : List SSTableId}
    (live : ∀ id ∈ ids, id ∈ world.engine.version.files.keys) : Readable world.disk ids := by
  intro id member
  obtain ⟨row, found⟩ := SortedMap.mem_keys_iff.mp (live id member)
  exact stocked.stored id row found

variable (shape) in
theorem ready_of_readable {task : CompactionTask} (quiet : world.engine.versionSet.Quiet)
    (live : ∀ id ∈ task.inputs, id ∈ world.engine.version.files.keys) (readable : Readable world.disk task.inputs)
    (fresh : task.outputId ∉ task.inputs) :
    Ready (entryFormat shape) world task (fileAt world.disk) (infoAt shape world.disk) where
  quiet := quiet
  live := by
    intro id member
    obtain ⟨row, found⟩ := SortedMap.mem_keys_iff.mp (live id member)
    simp [found]
  present := by
    intro id member
    obtain ⟨estimatedKeys, entries, present, _⟩ := readable id member
    simp [fileAt, present]
  accepted := by
    intro id member
    obtain ⟨estimatedKeys, entries, present, positive⟩ := readable id member
    simp only [infoAt, fileAt, present, Option.getD_some]
    exact entryFormat_create_whole shape entries positive
  fresh := fresh

theorem cursorOf_whole {id : SSTableId} {estimatedKeys : Nat} {entries : List Entry}
    (readable : ∀ block < (shape.blocks entries).length, fate (.readBlock id block) ≠ .failed) :
    cursorOf (entryFormat shape) fate id (.whole estimatedKeys entries) = ⟨shape.delivered entries, none⟩ := by
  have clear : (fun block => if block < (entryFormat shape).blockCount (.whole estimatedKeys entries) ∧
      fate (.readBlock id block) = .failed then some (Call.error (.readBlock id block)) else none) =
        fun _ => none := by
    funext block
    split
    · rename_i both
      exact absurd both.2 (readable block both.1)
    · rfl
  rw [cursorOf, clear]
  exact entryFormat_scan_calm shape estimatedKeys entries

/-- The footers promise as many keys as the inputs hold. -/
theorem entryCounts_eq {inputs : List SSTableId} (readable : Readable world.disk inputs) :
    ((inputs.map (infoAt shape world.disk)).map TableInfo.entryCount).sum = possibleKeys world.disk inputs := by
  rw [possibleKeys, List.map_map]
  congr 1
  apply List.map_congr_left
  intro id member
  obtain ⟨estimatedKeys, entries, present, _⟩ := readable id member
  simp [infoAt, fileAt, entriesAt, present, EntryFile.entries]

/-- Whatever could be read, the output is made for the keys that the footers
promise. -/
theorem outputFile_whole {task : CompactionTask} (readable : Readable world.disk task.inputs) :
    outputFile (entryFormat shape) fate (fileAt world.disk) (infoAt shape world.disk) task =
      .whole (possibleKeys world.disk task.inputs) (compactedEntries
        (task.inputs.map fun id => cursorOf (entryFormat shape) fate id (fileAt world.disk id))
        task.canDropTombstone) := by
  rw [outputFile, entryCounts_eq readable, entryFormat_complete]

/-- Without read failures the output is the merge of what the inputs deliver. -/
theorem outputFile_eq {task : CompactionTask} (readable : Readable world.disk task.inputs)
    (blocks : ∀ id ∈ task.inputs, ∀ block < (shape.blocks (entriesAt world.disk id)).length,
      fate (.readBlock id block) ≠ .failed) :
    outputFile (entryFormat shape) fate (fileAt world.disk) (infoAt shape world.disk) task =
      .whole (possibleKeys world.disk task.inputs) (mergedEntries shape world.disk task.inputs task.canDropTombstone) := by
  have cursors : (task.inputs.map fun id => cursorOf (entryFormat shape) fate id (fileAt world.disk id)) =
      task.inputs.map fun id => ⟨shape.delivered (entriesAt world.disk id), none⟩ := by
    apply List.map_congr_left
    intro id member
    obtain ⟨estimatedKeys, entries, present, _⟩ := readable id member
    have held : entriesAt world.disk id = entries := by simp [entriesAt, present, EntryFile.entries]
    have file : fileAt world.disk id = .whole estimatedKeys entries := by simp [fileAt, present]
    have free := blocks id member
    rw [held] at free ⊢
    rw [file, cursorOf_whole free]
  rw [outputFile_whole readable, cursors]
  rfl

/-- An iterator over a file, complete or not, when all blocks can be read. -/
theorem entryFormat_scan_entries (file : EntryFile) :
    (entryFormat shape).scan file (fun _ => none) = ⟨shape.delivered file.entries, none⟩ := by
  cases file with
  | torn answer => simp [entryFormat, EntryFile.entries, TableShape.delivered, shape.blocks_nil]
  | whole estimatedKeys entries => exact entryFormat_scan_calm shape estimatedKeys entries

theorem mem_delivered {α : Type} {read : α → List Entry} {inputs : List α} {entry : Entry} :
    entry ∈ MergeIterator.delivered (inputs.map fun id => ⟨read id, none⟩) ↔ ∃ id ∈ inputs, entry ∈ read id := by
  simp [MergeIterator.delivered, List.mem_flatMap]

theorem merge_of_ascending {α : Type} {read : α → List Entry} {inputs : List α}
    (ascending : ∀ id ∈ inputs, Assoc.Ascending (read id)) :
    Merged (MergeIterator.delivered (inputs.map fun id => ⟨read id, none⟩))
      (MergeIterator.scan (inputs.map fun id => ⟨read id, none⟩)).1 := by
  refine (MergeIterator.scan_spec ?_).1 ?_
  · intro source member
    obtain ⟨id, isInput, same⟩ := List.mem_map.mp member
    exact same ▸ ascending id isInput
  · intro fails
    obtain ⟨source, member, failure⟩ := fails
    obtain ⟨id, _, same⟩ := List.mem_map.mp member
    exact failure (by rw [← same])

/-- What layers hold under some ids, where each id has a layer of its own. -/
theorem holds_inputs {layers : Layers Key InternalValue} {read : SSTableId → List Entry} {inputs : List SSTableId}
    (inside : ∀ id ∈ inputs, layers.find? id = some (read id)) {key : Key} {value : InternalValue} :
    layers.Holds (· ∈ inputs) key value ↔ ∃ id ∈ inputs, (key, value) ∈ read id := by
  constructor
  · intro holds
    obtain ⟨id, layer, found, isInput, member⟩ := holds
    rw [inside id isInput] at found
    cases found
    exact ⟨id, isInput, member⟩
  · intro held
    obtain ⟨id, isInput, member⟩ := held
    exact ⟨id, read id, inside id isInput, isInput, member⟩

/-- The output carries the newest version of each key that the inputs deliver,
tombstones apart when they are dropped. -/
theorem mergedEntries_winners {layers : Layers Key InternalValue} {disk : Disk EntryFile} {inputs : List SSTableId}
    (full : Bool) (ordered : Layers.Ordered InternalValue.sequence layers)
    (inside : ∀ id ∈ inputs, layers.find? id = some (shape.delivered (entriesAt disk id))) :
    Layers.Winners InternalValue.sequence layers inputs (fun value => value.isTombstone ∧ full)
      (mergedEntries shape disk inputs full) := by
  have merged := merge_of_ascending fun id member => ordered.ascending id _ (inside id member)
  refine ⟨List.Pairwise.filter _ merged.ascending, ?_, ?_⟩
  · intro key version carried
    obtain ⟨held, highest⟩ := merged.newest (key, version) (List.mem_filter.mp carried).1
    refine ⟨(holds_inputs inside).mpr (mem_delivered.mp held), ?_⟩
    intro other holds
    exact highest (key, other) (mem_delivered.mpr ((holds_inputs inside).mp holds)) rfl
  · intro key version holds
    obtain ⟨winner, kept, same⟩ := merged.covers (key, version) (mem_delivered.mpr ((holds_inputs inside).mp holds))
    obtain ⟨name, value⟩ := winner
    simp only at same
    subst same
    by_cases drop : value.isTombstone ∧ full
    · right
      obtain ⟨held, highest⟩ := merged.newest (name, value) kept
      refine ⟨value, (holds_inputs inside).mpr (mem_delivered.mp held), drop, ?_⟩
      intro other present
      exact highest (name, other) (mem_delivered.mpr ((holds_inputs inside).mp present)) rfl
    · have keep : (value.isTombstone && full) = false := by
        rw [Bool.eq_false_iff]
        simpa using drop
      exact .inl ⟨value, List.mem_filter.mpr ⟨kept, by simp [keep]⟩⟩

theorem liveLayers_inputs {inputs : List SSTableId} (live : ∀ id ∈ inputs, id ∈ world.engine.version.files.keys) :
    ∀ id ∈ inputs, (liveLayers world).find? id = some (entriesAt world.disk id) := by
  intro id member
  obtain ⟨row, found⟩ := SortedMap.mem_keys_iff.mp (live id member)
  simp [liveLayers_find?, found]

theorem ScansWhole.inside {inputs : List SSTableId} (whole : ScansWhole shape world.disk inputs)
    (live : ∀ id ∈ inputs, id ∈ world.engine.version.files.keys) :
    ∀ id ∈ inputs, (liveLayers world).find? id = some (shape.delivered (entriesAt world.disk id)) := by
  intro id member
  rw [whole id member, liveLayers_inputs live id member]

theorem liveLayers_compacted {task : CompactionTask} {versionSet : VersionSet} {row : SSTableMeta}
    (estimatedKeys : Nat) (entries : List Entry) (fresh : task.outputId ∉ task.inputs)
    (files : versionSet.currentVersion.files =
      (task.inputs.foldl SortedMap.erase world.engine.version.files).insert task.outputId row) :
    liveLayers (compactedWorld world task (.whole estimatedKeys entries) versionSet) =
      (liveLayers world).merge task.inputs task.outputId entries := by
  apply SortedMap.ext_find?
  intro id
  rw [liveLayers_find?, Layers.merge, SortedMap.find?_insert]
  simp only [compactedWorld, Dazzle.version, files, SortedMap.find?_insert, SortedMap.foldl_erase_find?,
    liveLayers_find?]
  by_cases output : id = task.outputId
  · subst output
    simp [entriesAt, SortedMap.foldl_erase_find?, fresh, EntryFile.entries]
  · by_cases input : id ∈ task.inputs
    · simp [output, input]
    · simp [output, input, entriesAt, SortedMap.foldl_erase_find?]

/-- The state after the output id of a task is taken. -/
def minted {F : Type} (world : World F) : World F :=
  { world with engine := { world.engine with nextSstSeq := world.engine.nextSstSeq + 1 } }

/-- A task over live tables, with the next id as its output. -/
structure Task {F : Type} (world : World F) (task : CompactionTask) : Prop where
  live : ∀ id ∈ task.inputs, id ∈ world.engine.version.files.keys
  fresh : ∀ id ∈ world.engine.version.files.keys, id < task.outputId
  minted : task.outputId < world.engine.nextSstSeq

theorem Task.outside {F : Type} {world : World F} {task : CompactionTask} (valid : Task world task) : task.outputId ∉ task.inputs :=
  fun member => lt_irrefl _ (valid.fresh _ (valid.live _ member))

theorem Task.above {task : CompactionTask} (valid : Task world task) :
    ∀ id ∈ (liveLayers world).keys, id < task.outputId := by
  intro id member
  obtain ⟨layer, found⟩ := SortedMap.mem_keys_iff.mp member
  rw [liveLayers_find?] at found
  obtain ⟨row, present, _⟩ := Option.map_eq_some_iff.mp found
  exact valid.fresh id (SortedMap.mem_keys_iff.mpr ⟨row, present⟩)

/-- No live table left out holds a newer version of a key whose newest input
version the compaction keeps. -/
def LeavesNoNewer (world : World EntryFile) (inputs : List SSTableId) (full : Bool) : Prop :=
  ∀ input ∈ inputs, ∀ entry ∈ entriesAt world.disk input,
    (∀ rival ∈ inputs, ∀ version ∈ entriesAt world.disk rival, version.1 = entry.1 →
      version.2.sequence ≤ entry.2.sequence) → ¬ (entry.2.isTombstone ∧ full) →
    ∀ id ∈ world.engine.version.files.keys, id ∉ inputs → ∀ other ∈ entriesAt world.disk id,
      other.1 = entry.1 → other.2.sequence ≤ entry.2.sequence

instance (world : World EntryFile) (inputs : List SSTableId) (full : Bool) :
    Decidable (LeavesNoNewer world inputs full) :=
  inferInstanceAs (Decidable (∀ input ∈ inputs, _))

theorem LeavesNoNewer.noneNewerOutside {inputs : List SSTableId} {full : Bool}
    (safe : LeavesNoNewer world inputs full) (whole : ScansWhole shape world.disk inputs)
    (live : ∀ id ∈ inputs, id ∈ world.engine.version.files.keys)
    (ordered : Layers.Ordered InternalValue.sequence (liveLayers world)) :
    Layers.NoneNewerOutside InternalValue.sequence (liveLayers world) inputs
      (mergedEntries shape world.disk inputs full) := by
  intro key version carried other holds
  obtain ⟨inside, highest⟩ := (mergedEntries_winners full ordered (whole.inside live)).newest key version carried
  obtain ⟨input, isInput, held⟩ := (holds_inputs (liveLayers_inputs live)).mp inside
  obtain ⟨id, layer, found, outside, member⟩ := holds
  rw [liveLayers_find?] at found
  obtain ⟨row, present, same⟩ := Option.map_eq_some_iff.mp found
  subst same
  refine safe input isInput (key, version) held ?_ ?_ id (SortedMap.mem_keys_iff.mpr ⟨row, present⟩) outside
    (key, other) member rfl
  · intro rival isRival entry stored equal
    have named : entry = (key, entry.2) := Prod.ext equal rfl
    exact highest entry.2 ((holds_inputs (liveLayers_inputs live)).mpr ⟨rival, isRival, named ▸ stored⟩)
  · intro both
    obtain ⟨tombstone, dropped⟩ := both
    simp only at tombstone
    have kept := (List.mem_filter.mp carried).2
    simp [tombstone, dropped] at kept

/-- Once a task is installed its output is one of the live tables. -/
theorem Stocked.compacted (stocked : Stocked world) {task : CompactionTask} (valid : Task world task)
    {versionSet : VersionSet} {info : TableInfo} {estimatedKeys : Nat} {entries : List Entry}
    (positive : estimatedKeys ≠ 0) (quiet : versionSet.Quiet)
    (files : versionSet.currentVersion.files = (task.inputs.foldl SortedMap.erase
      world.engine.version.files).insert task.outputId (tableMeta task.outputId info)) :
    Stocked (compactedWorld world task (.whole estimatedKeys entries) versionSet) := by
  have rows : ∀ {id row}, versionSet.currentVersion.files.find? id = some row →
      id = task.outputId ∧ row = tableMeta task.outputId info ∨
        id ≠ task.outputId ∧ id ∉ task.inputs ∧ world.engine.version.files.find? id = some row := by
    intro id row found
    rw [files, SortedMap.find?_insert, SortedMap.foldl_erase_find?] at found
    split at found
    · exact .inl ⟨‹_›, (Option.some.inj found).symm⟩
    · split at found
      · cases found
      · exact .inr ⟨‹_›, ‹_›, found⟩
  exact {
    quiet := quiet
    named := by
      intro id row found
      rcases rows found with ⟨rfl, rfl⟩ | ⟨_, _, before⟩
      · rfl
      · exact stocked.named id row before
    stored := by
      intro id row found
      rcases rows found with ⟨rfl, _⟩ | ⟨different, outside, before⟩
      · exact ⟨estimatedKeys, entries, by simp [compactedWorld, SortedMap.foldl_erase_find?, valid.outside], positive⟩
      · obtain ⟨keys, held, present, accepted⟩ := stocked.stored id row before
        exact ⟨keys, held, by
          simpa [compactedWorld, SortedMap.foldl_erase_find?, different, outside] using present, accepted⟩
    below := by
      intro id member
      obtain ⟨row, found⟩ := SortedMap.mem_keys_iff.mp member
      rcases rows found with ⟨rfl, _⟩ | ⟨_, _, before⟩
      · exact valid.minted
      · exact stocked.below id (SortedMap.mem_keys_iff.mpr ⟨row, before⟩) }

/-- An output that is not installed is no live table. -/
theorem Stocked.withOutput (stocked : Stocked world) {task : CompactionTask} (valid : Task world task)
    (file : EntryFile) : Stocked (withOutput world task file) where
  quiet := stocked.quiet
  named := stocked.named
  stored := by
    intro id row found
    have different : id ≠ task.outputId := ne_of_lt (valid.fresh id (SortedMap.mem_keys_iff.mpr ⟨row, found⟩))
    obtain ⟨keys, entries, present, positive⟩ := stocked.stored id row found
    exact ⟨keys, entries, by simpa [Engine.withOutput, different] using present, positive⟩
  below := stocked.below

theorem liveLayers_withOutput {task : CompactionTask} (valid : Task world task) (file : EntryFile) :
    liveLayers (withOutput world task file) = liveLayers world := by
  refine liveLayers_congr (by rfl) ?_
  intro id member
  have different : id ≠ task.outputId := ne_of_lt (valid.fresh id member)
  simp [withOutput, entriesAt, different]

theorem Stocked.minted (stocked : Stocked world) : Stocked (minted world) :=
  { stocked with below := fun id member => (stocked.below id member).trans (Nat.lt_succ_self _) }

theorem minted_task (stocked : Stocked world) {inputs : List SSTableId} (full : Bool)
    (live : ∀ id ∈ inputs, id ∈ world.engine.version.files.keys) :
    Task (Engine.minted world) ⟨inputs, world.engine.nextSstSeq, full⟩ :=
  ⟨live, stocked.below, Nat.lt_succ_self _⟩

theorem Consistent.compacted (consistent : Consistent world) {task : CompactionTask} (valid : Task world task)
    (safe : LeavesNoNewer world task.inputs task.canDropTombstone) (whole : ScansWhole shape world.disk task.inputs)
    {versionSet : VersionSet} {info : TableInfo}
    {estimatedKeys : Nat} (positive : estimatedKeys ≠ 0) (quiet : versionSet.Quiet)
    (files : versionSet.currentVersion.files = (task.inputs.foldl SortedMap.erase
      world.engine.version.files).insert task.outputId (tableMeta task.outputId info)) :
    Consistent (compactedWorld world task
      (.whole estimatedKeys (mergedEntries shape world.disk task.inputs task.canDropTombstone)) versionSet) := by
  have layers := liveLayers_compacted estimatedKeys
    (mergedEntries shape world.disk task.inputs task.canDropTombstone) valid.outside files
  have winners := mergedEntries_winners task.canDropTombstone consistent.ordered (whole.inside valid.live)
  have holds : ∀ {key value}, ((liveLayers world).merge task.inputs task.outputId
      (mergedEntries shape world.disk task.inputs task.canDropTombstone)).Holds (fun _ => True) key value →
        (liveLayers world).Holds (fun _ => True) key value := by
    intro key value held
    obtain ⟨id, layer, found, _, member⟩ := held
    rw [Layers.merge, SortedMap.find?_insert] at found
    split at found
    · cases found
      exact (winners.newest key value member).1.mono fun _ _ => trivial
    · exact ⟨id, layer, (Layers.find?_erased found).2, trivial, member⟩
  exact {
    toStocked := consistent.toStocked.compacted valid positive quiet files
    ordered := by
      rw [layers]
      exact consistent.ordered.merge winners valid.above (safe.noneNewerOutside whole valid.live consistent.ordered)
    memtableNewer := by
      intro key new old found held
      rw [layers] at held
      exact consistent.memtableNewer key new old found (holds held)
    memtableBelow := consistent.memtableBelow
    tablesBelow := by
      intro key value held
      rw [layers] at held
      exact consistent.tablesBelow key value (holds held) }

/-- Dropped tombstones are older than whatever the tables left out hold. -/
def DropsOldest (world : World EntryFile) (inputs : List SSTableId) (full : Bool) : Prop :=
  full = true → ∀ id ∈ world.engine.version.files.keys, id ∉ inputs → ∀ input ∈ inputs, input < id

/-- Readers see the same before and after a safe compaction. -/
theorem visible_compacted (consistent : Consistent world) {task : CompactionTask} (valid : Task world task)
    (safe : LeavesNoNewer world task.inputs task.canDropTombstone) (whole : ScansWhole shape world.disk task.inputs)
    (oldest : DropsOldest world task.inputs task.canDropTombstone) {versionSet : VersionSet} {row : SSTableMeta}
    (estimatedKeys : Nat)
    (files : versionSet.currentVersion.files = (task.inputs.foldl SortedMap.erase
      world.engine.version.files).insert task.outputId row) (key : Key) :
    (view (compactedWorld world task (.whole estimatedKeys
      (mergedEntries shape world.disk task.inputs task.canDropTombstone)) versionSet) key).bind InternalValue.visible =
      (view world key).bind InternalValue.visible := by
  have layers := liveLayers_compacted estimatedKeys
    (mergedEntries shape world.disk task.inputs task.canDropTombstone) valid.outside files
  have winners := mergedEntries_winners task.canDropTombstone consistent.ordered (whole.inside valid.live)
  have below : ∀ low high : SSTableId, low ∈ task.inputs → high ∉ task.inputs ∧
      high ∈ world.engine.version.files.keys → task.canDropTombstone = true → low < high :=
    fun low high input other full => oldest full high other.2 other.1 low input
  have looked := Layers.lookup_merge consistent.ordered winners valid.above
    (safe.noneNewerOutside whole valid.live consistent.ordered) (by
      intro key dropped other droppable inside _ _ outside
      refine consistent.ordered.rank_lt inside ?_
        (fun low high input other => below low high input other droppable.2)
      obtain ⟨id, layer, found, isOutside, member⟩ := outside
      have present := found
      rw [liveLayers_find?] at present
      obtain ⟨row, stored, _⟩ := Option.map_eq_some_iff.mp present
      exact ⟨id, layer, found, ⟨isOutside, SortedMap.mem_keys_iff.mpr ⟨row, stored⟩⟩, member⟩) key
  rw [view, view, layers]
  change ((world.engine.activeMemtable.get key).or _).bind _ = _
  cases world.engine.activeMemtable.get key with
  | some value => rfl
  | none =>
    rcases looked with same | ⟨gone, dropped, was, tombstone⟩
    · rw [same]
    · simp [gone, was, InternalValue.visible, tombstone.1]

end

end Engine

end Enigma
