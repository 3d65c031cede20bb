import Enigma.Engine.Reopening

/-! A compaction task under faults, as far as its block reads succeed: where it
stops before its version edit, and which inputs remain after it. -/

namespace Enigma

namespace Engine

open Prog

section

variable {shape : TableShape} {world : World EntryFile} {may : Call → Fate → Prop}

/-- No block read fails. -/
def BlocksRead (may : Call → Fate → Prop) : Prop := ∀ id block, ¬ may (.readBlock id block) .failed

theorem wp_openInput {id : SSTableId} {estimatedKeys : Nat} {entries : List Entry}
    (present : world.disk.sst.find? id = some (.whole estimatedKeys entries)) (positive : estimatedKeys ≠ 0)
    {post : Post Error (World EntryFile) TableInfo} (ok : post.ok (infoAt shape world.disk id) world)
    (err : ∀ error, Fallible may → post.err error world) (crash : Crashable may → post.crash world) :
    wp may (openInput (entryFormat shape) id) post world := by
  have accepted := entryFormat_create_whole shape entries positive
  refine wp_bind (wp_attempt (wp_readTable ?_ ?_ crash))
  · intro file info found answer
    rw [present] at found
    cases found
    rw [accepted] at answer
    cases answer
    have footer : infoAt shape world.disk id = ⟨shape.sizeBytes estimatedKeys entries, entries.length,
        highestSequence entries⟩ := by
      simp [infoAt, fileAt, present]
    exact wp_pure (footer ▸ ok)
  · intro error reason
    rcases reason with failed | missing
    · exact wp_fail (err _ failed)
    · exact absurd ⟨_, _, present, accepted⟩ missing

theorem wp_scanTable (reads : BlocksRead may) {id : SSTableId} {estimatedKeys : Nat} {entries : List Entry}
    (present : world.disk.sst.find? id = some (.whole estimatedKeys entries)) {post : Post Error (World EntryFile) Cursor}
    (ok : post.ok ⟨shape.delivered entries, none⟩ world) (crash : Crashable may → post.crash world) :
    wp may (scanTable (entryFormat shape) id) post world := by
  refine wp_getState_bind ?_
  simp only [present]
  refine wp_bind (wp_mapEach_map (fun _ => .ok ()) ?_ ?_)
  · intro block _
    refine wp_attempt (wp_call ⟨rfl, rfl⟩ (fun failed => absurd failed (reads id block)) ?_)
    exact fun died => crash ⟨_, by simp, died⟩
  · have scans : ∀ failure : Nat → Option Error, (∀ block, failure block = none) →
        post.ok ((entryFormat shape).scan (.whole estimatedKeys entries) failure) world := by
      intro failure never
      rw [funext never, entryFormat_scan_calm]
      exact ok
    refine wp_pure (scans _ ?_)
    intro block
    split
    · rename_i error found
      obtain ⟨_, _, same⟩ := List.mem_map.mp (List.mem_of_getElem? found)
      cases same
    · rfl

/-- A compaction that can read its inputs' blocks writes their merge, or stops
while it writes it. -/
theorem wp_compact (reads : BlocksRead may) {inputs : List SSTableId} (readable : Readable world.disk inputs)
    (outputId : SSTableId) (full : Bool) {post : Post Error (World EntryFile) SSTableId}
    (ok : post.ok outputId { world with
      disk := world.disk.putTable outputId (.whole (possibleKeys world.disk inputs) (mergedEntries shape world.disk inputs full)) })
    (err : ∀ error after, Fallible may → WriteStopped shape world outputId (possibleKeys world.disk inputs)
      (mergedEntries shape world.disk inputs full) after → post.err error after)
    (crash : ∀ after, Crashable may → WriteStopped shape world outputId (possibleKeys world.disk inputs)
      (mergedEntries shape world.disk inputs full) after → post.crash after) :
    wp may (compact (entryFormat shape) inputs outputId full) post world := by
  refine wp_bind (wp_mapEach_map (infoAt shape world.disk) ?_ ?_)
  · intro id member
    obtain ⟨estimatedKeys, entries, present, positive⟩ := readable id member
    exact wp_openInput present positive ⟨rfl, rfl⟩ (fun error failed => err error world failed (.inl rfl))
      (fun died => crash world died (.inl rfl))
  · refine wp_bind (wp_mapEach_map (fun id => ⟨shape.delivered (entriesAt world.disk id), none⟩) ?_ ?_)
    · intro id member
      obtain ⟨estimatedKeys, entries, present, _⟩ := readable id member
      refine wp_scanTable reads present ⟨rfl, ?_⟩ (fun died => crash world died (.inl rfl))
      simp [entriesAt, present, EntryFile.entries]
    · change wp may (writeTable (entryFormat shape) outputId
        ((inputs.map (infoAt shape world.disk)).map TableInfo.entryCount).sum (mergedEntries shape world.disk inputs full) >>=
          fun _ => pure outputId) post world
      rw [entryCounts_eq readable]
      exact wp_bind (wp_writeTable (wp_pure ok) err crash)

/-- The live tables, by id, as far as iterators deliver them. -/
def scannedLayers (shape : TableShape) (world : World EntryFile) : Layers Key InternalValue :=
  (liveLayers world).mapValues fun _ entries => shape.delivered entries

theorem scannedLayers_inputs {inputs : List SSTableId} (live : ∀ id ∈ inputs, id ∈ world.engine.version.files.keys) :
    ∀ id ∈ inputs, (scannedLayers shape world).find? id = some (shape.delivered (entriesAt world.disk id)) := by
  intro id member
  rw [scannedLayers, SortedMap.find?_mapValues, liveLayers_inputs live id member]
  rfl

/-- The output of a task over live tables, told by what their iterators deliver. -/
theorem mergedEntries_scanned (ordered : Layers.Ordered InternalValue.sequence (liveLayers world))
    {inputs : List SSTableId} (live : ∀ id ∈ inputs, id ∈ world.engine.version.files.keys) (full : Bool) :
    Layers.Winners InternalValue.sequence (scannedLayers shape world) inputs (fun value => value.isTombstone ∧ full)
      (mergedEntries shape world.disk inputs full) :=
  mergedEntries_winners full (ordered.thinned shape.delivered_sublist) (scannedLayers_inputs live)

/-- A directory in which some of these files are gone. -/
structure Reclaimed (ids : List SSTableId) (disk after : Disk EntryFile) : Prop where
  wal : after.wal = disk.wal
  outside : ∀ id ∉ ids, after.sst.find? id = disk.sst.find? id
  inside : ∀ id ∈ ids, after.sst.find? id = none ∨ after.sst.find? id = disk.sst.find? id

theorem Reclaimed.congr {ids others : List SSTableId} {disk after : Disk EntryFile} (reclaimed : Reclaimed ids disk after)
    (same : ∀ id, id ∈ ids ↔ id ∈ others) : Reclaimed others disk after where
  wal := reclaimed.wal
  outside := fun id outside => reclaimed.outside id (mt (same id).mp outside)
  inside := fun id inside => reclaimed.inside id ((same id).mpr inside)

theorem wp_reclaim (ids : List SSTableId) {post : Post Error (World EntryFile) Unit}
    (ok : ∀ after, Reclaimed ids world.disk after → post.ok () { world with disk := after })
    (crash : may .unlink .crashed → ∀ after, Reclaimed ids world.disk after → post.crash { world with disk := after }) :
    wp may (reclaim ids) post world := by
  refine wp_forEach (fun remaining after => (∀ id ∈ remaining, id ∈ ids) ∧ after.engine = world.engine ∧
    Reclaimed ids world.disk after.disk) ?_ ?_ ?_
  · exact ⟨fun _ member => member, rfl, rfl, fun _ _ => rfl, fun _ _ => .inr rfl⟩
  · intro after invariant
    obtain ⟨_, engine, reclaimed⟩ := invariant
    obtain ⟨disk, _⟩ := after
    cases engine
    exact ok disk reclaimed
  · intro id remaining after invariant
    obtain ⟨listed, engine, reclaimed⟩ := invariant
    obtain ⟨disk, _⟩ := after
    cases engine
    have later : ∀ other ∈ remaining, other ∈ ids := fun other member => listed other (by simp [member])
    refine wp_bind (wp_attempt (wp_call ?_ ?_ (fun died => crash died disk reclaimed)))
    · refine wp_pure ⟨later, rfl, reclaimed.wal, ?_, ?_⟩
      · intro other outside
        have different : other ≠ id := fun same => outside (same ▸ listed id (by simp))
        simpa [Disk.dropTable, different] using reclaimed.outside other outside
      · intro other inside
        by_cases same : other = id
        · simp [Disk.dropTable, same]
        · simpa [Disk.dropTable, same] using reclaimed.inside other inside
    · exact fun _ => wp_pure ⟨later, rfl, reclaimed⟩

theorem Undisturbed.possibleKeys_pos (undisturbed : Undisturbed shape world) {inputs : List SSTableId}
    (live : ∀ id ∈ inputs, id ∈ world.engine.version.files.keys) (some : inputs ≠ []) :
    possibleKeys world.disk inputs ≠ 0 := by
  obtain ⟨id, member⟩ := List.exists_mem_of_ne_nil inputs some
  intro zero
  have none := List.sum_eq_zero_iff_forall_eq_nat.mp zero _ (List.mem_map.mpr ⟨id, member, rfl⟩)
  exact undisturbed.filled id (live id member) (List.length_eq_zero_iff.mp none)

theorem loggedValue_congr {disk after : Disk EntryFile} (same : after.wal = disk.wal) (key : Key) :
    loggedValue after key = loggedValue disk key := by
  rw [loggedValue, walRecords, same]
  rfl

/-- A directory with the same log and complete tables can be reopened. -/
theorem Undisturbed.closed_of_wal (undisturbed : Undisturbed shape world)
    (fits : ∀ record ∈ walRecords world.disk, record.Fits) {after : Disk EntryFile} (wal : after.wal = world.disk.wal)
    (whole : AllWhole after) : Closed shape WalRecord.Fits (fun key value => value = diskView after key) after where
  sole := by
    refine ⟨world.engine.walWriter, ?_⟩
    intro id records found
    rw [wal] at found
    exact undisturbed.durable.log id records found
  loggable := by
    intro id records found record member
    rw [wal] at found
    exact fits record (List.mem_flatMap.mpr ⟨(id, records), SortedMap.find?_eq_some_iff.mp found, member⟩)
  whole := fun _ => whole
  onDisk := fun _ => rfl

end

end Engine

end Enigma
