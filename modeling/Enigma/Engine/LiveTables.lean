import Enigma.Foundation.Layers
import Enigma.Compaction.MergeInvariant
import Enigma.Engine.FaultFreeRuns

/-! The engine over tables taken as their entry lists. The live tables form a
stack of layers by id, and reads are lookups in the memtable and then in that
stack. -/

namespace Enigma

def EntryFile.entries : EntryFile → List Entry
  | .torn _ => []
  | .whole _ entries => entries

namespace Engine

open Prog

/-- The entries that a directory holds under an id. -/
def entriesAt (disk : Disk EntryFile) (id : SSTableId) : List Entry :=
  ((disk.sst.find? id).map EntryFile.entries).getD []

/-- The live tables, by id. -/
def liveLayers (world : World EntryFile) : Layers Key InternalValue :=
  world.engine.version.files.mapValues fun id _ => entriesAt world.disk id

/-- What the engine answers for a key: the memtable first, then the tables. -/
def view (world : World EntryFile) (key : Key) : Option InternalValue :=
  (world.engine.activeMemtable.get key).or ((liveLayers world).lookup key)

/-- Every live table is on disk in full, accepted by the reader, and known by
its own id below the next one. -/
structure Stocked (world : World EntryFile) : Prop where
  quiet : world.engine.versionSet.Quiet
  named : ∀ id row, world.engine.version.files.find? id = some row → row.id = id
  stored : ∀ id row, world.engine.version.files.find? id = some row →
    ∃ estimatedKeys entries, world.disk.sst.find? id = some (.whole estimatedKeys entries) ∧ estimatedKeys ≠ 0
  below : ∀ id ∈ world.engine.version.files.keys, id < world.engine.nextSstSeq

theorem liveLayers_find? (world : World EntryFile) (id : SSTableId) :
    (liveLayers world).find? id =
      (world.engine.version.files.find? id).map fun _ => entriesAt world.disk id := by
  simp [liveLayers]

theorem liveLayers_below {world : World EntryFile} (stocked : Stocked world) :
    ∀ id ∈ (liveLayers world).keys, id < world.engine.nextSstSeq := by
  intro id member
  obtain ⟨layer, found⟩ := SortedMap.mem_keys_iff.mp member
  rw [liveLayers_find?] at found
  obtain ⟨row, present, _⟩ := Option.map_eq_some_iff.mp found
  exact stocked.below id (SortedMap.mem_keys_iff.mpr ⟨row, present⟩)

theorem Stocked.ids {world : World EntryFile} (stocked : Stocked world) :
    world.engine.version.sstMetaToVector.map SSTableMeta.id = world.engine.version.files.keys :=
  Version.metas_ids stocked.named

/-- The inputs of `compact_now`: all live tables. -/
def allInputs {F : Type} (world : World F) : List SSTableId :=
  (world.engine.version.sstMetaToVector.map SSTableMeta.id).insertionSort (· ≤ ·)

theorem mem_allInputs {world : World EntryFile} (stocked : Stocked world) (id : SSTableId) :
    id ∈ allInputs world ↔ id ∈ world.engine.version.files.keys := by
  rw [allInputs, List.mem_insertionSort, stocked.ids]

theorem allInputs_ne_nil {world : World EntryFile} (stocked : Stocked world)
    (tables : world.engine.version.files.keys ≠ []) : allInputs world ≠ [] := by
  obtain ⟨id, member⟩ := List.exists_mem_of_ne_nil _ tables
  exact List.ne_nil_of_mem ((mem_allInputs stocked id).mpr member)

section

variable {shape : TableShape}

/-- Reads answer the view, without an error. -/
theorem getInternal_eq {world : World EntryFile} (stocked : Stocked world) (key : Key) :
    getInternal (entryFormat shape) world key = .ok (view world key) := by
  have scan : ∀ ids : List SSTableId, (∀ id ∈ ids, id ∈ world.engine.version.files.keys) →
      lookupInternal (entryFormat shape) world.disk key ids =
        .ok (ids.findSome? fun id => Assoc.find? (entriesAt world.disk id) key) := by
    intro ids
    induction ids with
    | nil => exact fun _ => rfl
    | cons id older ih =>
      intro live
      obtain ⟨row, found⟩ := SortedMap.mem_keys_iff.mp (live id (by simp))
      obtain ⟨estimatedKeys, entries, present, positive⟩ := stocked.stored id row found
      have held : entriesAt world.disk id = entries := by simp [entriesAt, present, EntryFile.entries]
      have later := ih (fun other member => live other (by simp [member]))
      have step : lookupInternal (entryFormat shape) world.disk key (id :: older) = _ :=
        lookupInternal_cons present (entryFormat_create_whole shape entries positive) rfl
      rw [step, List.findSome?_cons, held, later]
      cases Assoc.find? entries key <;> rfl
  have whole := scan world.engine.version.files.keys.reverse (by simp)
  have order : (liveLayers world).lookup key =
      world.engine.version.files.keys.reverse.findSome? fun id => Assoc.find? (entriesAt world.disk id) key := by
    simp only [Layers.lookup, SortedMap.newest, liveLayers, SortedMap.mapValues, SortedMap.keys, ← List.map_reverse,
      List.findSome?_map]
    rfl
  unfold getInternal view
  rw [order]
  cases world.engine.activeMemtable.get key with
  | none => simpa using whole
  | some value => rfl

theorem get_eq {world : World EntryFile} (stocked : Stocked world) (key : Key) :
    get (entryFormat shape) world key = .ok ((view world key).bind InternalValue.visible) := by
  exact congrArg (Except.map fun found => found.bind InternalValue.visible) (getInternal_eq stocked key)

end

/-- Newer tables and the memtable hold the newer versions, and the counter is
past them all. -/
structure Consistent (world : World EntryFile) : Prop extends Stocked world where
  ordered : Layers.Ordered InternalValue.sequence (liveLayers world)
  memtableNewer : ∀ key new old, world.engine.activeMemtable.get key = some new →
    (liveLayers world).Holds (fun _ => True) key old → old.sequence < new.sequence
  memtableBelow : ∀ key value, world.engine.activeMemtable.get key = some value → value.sequence < world.engine.lsn
  tablesBelow : ∀ key value, (liveLayers world).Holds (fun _ => True) key value → value.sequence < world.engine.lsn

/-- A new engine on an empty directory. -/
theorem consistent_fresh (config : Config) :
    Consistent ⟨⟨.empty, SortedMap.empty.insert 1 []⟩, bootstrap config [] [] []⟩ where
  quiet := VersionSet.new_quiet _
  named := fun id row found => by cases found
  stored := fun id row found => by cases found
  below := fun id member => by cases member
  ordered := Layers.ordered_empty
  memtableNewer := fun key new old found => by cases found
  memtableBelow := fun key value found => by cases found
  tablesBelow := by
    intro key value holds
    obtain ⟨id, layer, found, _⟩ := holds
    cases found

section Effects

variable {shape : TableShape} {world : World EntryFile}

theorem liveLayers_congr {first second : World EntryFile}
    (files : first.engine.version.files = second.engine.version.files)
    (tables : ∀ id ∈ first.engine.version.files.keys, entriesAt first.disk id = entriesAt second.disk id) :
    liveLayers first = liveLayers second := by
  apply SortedMap.ext_find?
  intro id
  rw [liveLayers_find?, liveLayers_find?, ← files]
  cases found : first.engine.version.files.find? id with
  | none => rfl
  | some row => simp [tables id (SortedMap.mem_keys_iff.mpr ⟨row, found⟩)]

theorem liveLayers_written (key : Key) (value : Option Bytes) (timestamp : Nat) :
    liveLayers (written world key value timestamp) = liveLayers world :=
  liveLayers_congr rfl (fun id _ => by simp [written, entriesAt])

theorem Consistent.written (consistent : Consistent world) (key : Key) (value : Option Bytes) (timestamp : Nat) :
    Consistent (written world key value timestamp) where
  quiet := consistent.quiet
  named := consistent.named
  stored := by
    intro id row found
    obtain ⟨estimatedKeys, entries, present, positive⟩ := consistent.stored id row found
    exact ⟨estimatedKeys, entries, by simpa [Engine.written] using present, positive⟩
  below := consistent.below
  ordered := by
    rw [liveLayers_written]
    exact consistent.ordered
  memtableNewer := by
    intro probe new old found holds
    rw [liveLayers_written] at holds
    simp only [Engine.written, storeWrite_eq, Memtable.get, Memtable.store_entries, SortedMap.find?_insert] at found
    split at found
    · cases found
      exact consistent.tablesBelow probe old holds
    · exact consistent.memtableNewer probe new old found holds
  memtableBelow := by
    intro probe new found
    simp only [Engine.written, storeWrite_eq, Memtable.get, Memtable.store_entries, SortedMap.find?_insert] at found ⊢
    split at found
    · cases found
      exact Nat.lt_succ_self _
    · exact (consistent.memtableBelow probe new found).trans (Nat.lt_succ_self _)
  tablesBelow := by
    intro probe old holds
    rw [liveLayers_written] at holds
    exact (consistent.tablesBelow probe old holds).trans (Nat.lt_succ_self _)

theorem view_written (key : Key) (value : Option Bytes) (timestamp : Nat) (probe : Key) :
    view (written world key value timestamp) probe =
      if probe = key then some ⟨value.getD [], value.isNone, world.engine.lsn⟩ else view world probe := by
  rw [view, liveLayers_written, view]
  simp only [written, storeWrite_eq, Memtable.get, Memtable.store_entries, SortedMap.find?_insert]
  by_cases same : probe = key <;> simp [same]

theorem flushedFile_eq : flushedFile (entryFormat shape) world =
    .whole world.engine.activeMemtable.count world.engine.activeMemtable.entries.bindings :=
  entryFormat_complete shape _ _

variable (shape) in
/-- After a flush the memtable's entries are the top layer. -/
theorem liveLayers_flushed {versionSet : VersionSet} {row : SSTableMeta}
    (files : versionSet.currentVersion.files = world.engine.version.files.insert world.engine.nextSstSeq row) :
    liveLayers (flushedWorld (entryFormat shape) world versionSet) =
      (liveLayers world).insert world.engine.nextSstSeq world.engine.activeMemtable.entries.bindings := by
  apply SortedMap.ext_find?
  intro id
  rw [liveLayers_find?, SortedMap.find?_insert, liveLayers_find?]
  simp only [flushedWorld, Dazzle.version, files, SortedMap.find?_insert, flushedFile_eq]
  by_cases same : id = world.engine.nextSstSeq
  · simp [same, entriesAt, EntryFile.entries]
  · simp [same, entriesAt]

theorem Stocked.flushed (stocked : Stocked world) {versionSet : VersionSet} {info : TableInfo}
    (filled : world.engine.activeMemtable.count ≠ 0) (quiet : versionSet.Quiet)
    (files : versionSet.currentVersion.files = world.engine.version.files.insert world.engine.nextSstSeq
      (tableMeta world.engine.nextSstSeq info)) :
    Stocked (flushedWorld (entryFormat shape) world versionSet) where
  quiet := quiet
  named := by
    intro id row found
    simp only [flushedWorld, Dazzle.version, files, SortedMap.find?_insert] at found
    split at found
    · cases found
      simp [tableMeta, *]
    · exact stocked.named id row found
  stored := by
    intro id row found
    simp only [flushedWorld, Dazzle.version, files, SortedMap.find?_insert] at found
    split at found
    · rename_i same
      exact ⟨world.engine.activeMemtable.count, world.engine.activeMemtable.entries.bindings,
        by simp [flushedWorld, same, flushedFile_eq], filled⟩
    · rename_i different
      obtain ⟨estimatedKeys, entries, present, positive⟩ := stocked.stored id row found
      exact ⟨estimatedKeys, entries, by simpa [flushedWorld, different] using present, positive⟩
  below := by
    intro id member
    simp only [flushedWorld, Dazzle.version, files, SortedMap.mem_keys_insert] at member ⊢
    rcases member with here | earlier
    · exact here ▸ Nat.lt_succ_self _
    · exact (stocked.below id earlier).trans (Nat.lt_succ_self _)

theorem Consistent.flushed (consistent : Consistent world) {versionSet : VersionSet} {info : TableInfo}
    (filled : world.engine.activeMemtable.count ≠ 0) (quiet : versionSet.Quiet)
    (files : versionSet.currentVersion.files = world.engine.version.files.insert world.engine.nextSstSeq
      (tableMeta world.engine.nextSstSeq info)) :
    Consistent (flushedWorld (entryFormat shape) world versionSet) := by
  have layers := liveLayers_flushed shape files
  exact {
    toStocked := consistent.toStocked.flushed filled quiet files
    ordered := by
      rw [layers]
      refine consistent.ordered.insert_above (liveLayers_below consistent.toStocked)
        world.engine.activeMemtable.entries.ascending ?_
      intro key old new held member
      exact consistent.memtableNewer key new old (SortedMap.find?_eq_some_iff.mpr member) held
    memtableNewer := fun key new old found => by simp [flushedWorld, Memtable.get, Memtable.new] at found
    memtableBelow := fun key value found => by simp [flushedWorld, Memtable.get, Memtable.new] at found
    tablesBelow := by
      intro key value held
      obtain ⟨id, layer, found, _, member⟩ := held
      rw [layers, SortedMap.find?_insert] at found
      split at found
      · cases found
        exact consistent.memtableBelow key value (SortedMap.find?_eq_some_iff.mpr member)
      · exact consistent.tablesBelow key value ⟨id, layer, found, trivial, member⟩ }

theorem view_flushed (stocked : Stocked world) {versionSet : VersionSet} {row : SSTableMeta}
    (files : versionSet.currentVersion.files = world.engine.version.files.insert world.engine.nextSstSeq row)
    (key : Key) : view (flushedWorld (entryFormat shape) world versionSet) key = view world key := by
  rw [view, liveLayers_flushed shape files, Layers.lookup_insert_above _ (liveLayers_below stocked)]
  rfl

end Effects

end Engine

end Enigma
