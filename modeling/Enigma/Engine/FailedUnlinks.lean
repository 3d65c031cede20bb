import Enigma.Engine.CompactionFaults

/-! A compaction of all tables whose inputs are not all unlinked. The next `open`
publishes the survivors again, while the output no longer carries the tombstones
that covered them. -/

namespace Enigma

namespace Engine

open Prog

/-- Only unlinks fail or are cut off. -/
def UnlinkFaults (kind : Call) (fate : Fate) : Prop := fate = .done ∨ kind = .unlink

theorem unlinkFaults_reliable : ¬ Fallible UnlinkFaults := by
  rintro ⟨kind, plain, failed⟩
  exact plain (failed.resolve_left (by decide))

theorem unlinkFaults_alive : ¬ Crashable UnlinkFaults := by
  rintro ⟨kind, plain, died⟩
  exact plain (died.resolve_left (by decide))

theorem unlinkFaults_reads : BlocksRead UnlinkFaults := by
  intro id block failed
  rcases failed with same | same <;> cases same

section

variable {shape : TableShape} {world : World EntryFile}

/-- What a task whose unlinks may fail leaves in the directory. -/
def PartlyReclaimed (shape : TableShape) (world : World EntryFile) (inputs : List SSTableId) (outputId : SSTableId) (full : Bool)
    (after : Disk EntryFile) : Prop :=
  Reclaimed inputs (world.disk.putTable outputId (.whole (possibleKeys world.disk inputs)
    (mergedEntries shape world.disk inputs full))) after

theorem wp_runTask_unlinks {inputs : List SSTableId} {outputId : SSTableId} {full : Bool}
    (quiet : world.engine.versionSet.Quiet) (live : ∀ id ∈ inputs, id ∈ world.engine.version.files.keys)
    (readable : Readable world.disk inputs) (fresh : outputId ∉ inputs) (positive : possibleKeys world.disk inputs ≠ 0)
    {post : Post Error (World EntryFile) (Option SSTableId)}
    (ok : ∀ after, PartlyReclaimed shape world inputs outputId full after.disk → post.ok (some outputId) after)
    (crash : ∀ after, PartlyReclaimed shape world inputs outputId full after.disk → post.crash after) :
    wp UnlinkFaults (runTask (entryFormat shape) ⟨inputs, outputId, full⟩) post world := by
  refine wp_bind (wp_compact unlinkFaults_reads readable outputId full ?_
    (fun _ _ failed => absurd failed unlinkFaults_reliable) (fun _ died => absurd died unlinkFaults_alive))
  let output : EntryFile := .whole (possibleKeys world.disk inputs) (mergedEntries shape world.disk inputs full)
  refine wp_bind (wp_attempt (wp_bind (wp_readTable ?_ ?_ (fun died => absurd died unlinkFaults_alive))))
  · intro file info _ _
    refine wp_call_bind ?_ (fun failed => absurd ⟨_, by decide, failed⟩ unlinkFaults_reliable)
      (fun died => absurd ⟨_, by decide, died⟩ unlinkFaults_alive)
    have listed : ∀ id ∈ inputs, (world.engine.version.files.find? id).isSome := by
      intro id member
      obtain ⟨row, found⟩ := SortedMap.mem_keys_iff.mp (live id member)
      simp [found]
    have replaced : ∀ id ∈ inputs, (VersionSet.edited world.engine.version.files
        ⟨inputs, [tableMeta outputId info]⟩).find? id = none := by
      intro id member
      have different : id ≠ outputId := fun same => fresh (same ▸ member)
      simp [VersionSet.edited, tableMeta, different, SortedMap.foldl_erase_find?, member]
    obtain ⟨ids, versionSet, applied, _, _, _, members⟩ :=
      VersionSet.apply_quiet ⟨inputs, [tableMeta outputId info]⟩ quiet listed replaced
    refine wp_getState_bind ?_
    simp only [applied]
    refine wp_bind (wp_of_run (fun script => onEngine_run _ script _) (wp_reclaim ids ?_ (fun _ => ?_)))
    · exact fun after reclaimed => wp_pure (ok _ (reclaimed.congr members))
    · exact fun after reclaimed => crash _ (reclaimed.congr members)
  · intro error reason
    rcases reason with failed | missing
    · exact absurd failed unlinkFaults_reliable
    · exact absurd ⟨output, _, by simp [output], entryFormat_create_whole shape _ positive⟩ missing

/-- The tables that are still there, as `open` would publish them without the
compaction's output. -/
def survivors (world : World EntryFile) (stays : List SSTableId) : Layers Key InternalValue :=
  ((liveLayers world).keys.filter (· ∉ stays)).foldl SortedMap.erase (liveLayers world)

theorem survivors_find? (world : World EntryFile) (stays : List SSTableId) (id : SSTableId) :
    (survivors world stays).find? id = if id ∈ stays then (liveLayers world).find? id else none := by
  rw [survivors, SortedMap.foldl_erase_find?]
  by_cases stay : id ∈ stays
  · simp [stay]
  · by_cases live : id ∈ (liveLayers world).keys
    · simp [stay, live]
    · simp [stay, live, SortedMap.find?_eq_none_iff.mpr live]

theorem liveLayers_keys (world : World EntryFile) (id : SSTableId) :
    id ∈ (liveLayers world).keys ↔ id ∈ world.engine.version.files.keys := by
  rw [SortedMap.mem_keys_iff, SortedMap.mem_keys_iff]
  simp [liveLayers_find?]

/-- What `compact_now` leaves in the directory, whether reclaiming was cut off
or not. -/
theorem compactNow_unlinks (undisturbed : Undisturbed shape world) (tables : world.engine.version.files.keys ≠ [])
    {script : Script Call} (allowed : Allowed UnlinkFaults script) :
    PartlyReclaimed shape world (allInputs world) world.engine.nextSstSeq true
      ((compactNow (entryFormat shape)).run script world).2.2.disk := by
  have live := fun id => (mem_allInputs undisturbed.toStocked id).mp
  have some := allInputs_ne_nil undisturbed.toStocked tables
  have fresh : world.engine.nextSstSeq ∉ allInputs world :=
    fun member => lt_irrefl _ (undisturbed.below _ (live _ member))
  have metas : world.engine.version.sstMetaToVector ≠ [] := by
    intro none
    exact some (by simp [allInputs, none])
  have holds : wp UnlinkFaults (compactNow (entryFormat shape))
      ⟨fun _ after => PartlyReclaimed shape world (allInputs world) world.engine.nextSstSeq true after.disk, fun _ _ => False,
        fun after => PartlyReclaimed shape world (allInputs world) world.engine.nextSstSeq true after.disk⟩ world := by
    refine wp_getState_bind ?_
    simp only [metas, ↓reduceIte]
    refine wp_bind (wp_of_run (fun script => mintSstId_run script world) ?_)
    have quiet : (minted world).engine.versionSet.Quiet := undisturbed.quiet
    refine wp_runTask_unlinks quiet live (undisturbed.toStocked.readable live) fresh
      (undisturbed.possibleKeys_pos live some) ?_ ?_
    · exact fun _ left => left
    · exact fun _ left => left
  rcases run : (compactNow (entryFormat shape)).run script world with ⟨exit, rest, after⟩
  have ends := wp_run holds allowed run
  cases exit with
  | ok value => exact ends
  | err error => exact absurd ends id
  | crash => exact ends

/-- The directory after a reclaim that left these inputs: they lie under the
output. -/
theorem diskLayers_reclaimed (undisturbed : Undisturbed shape world) {after : Disk EntryFile} {stays : List SSTableId}
    (left : PartlyReclaimed shape world (allInputs world) world.engine.nextSstSeq true after)
    (stay : ∀ id ∈ world.engine.version.files.keys, id ∈ stays ↔ id ∈ after.sst.keys) :
    diskLayers after = (survivors world stays).insert world.engine.nextSstSeq
      (mergedEntries shape world.disk (allInputs world) true) := by
  have fresh : world.engine.nextSstSeq ∉ allInputs world :=
    fun member => lt_irrefl _ (undisturbed.below _ ((mem_allInputs undisturbed.toStocked _).mp member))
  apply SortedMap.ext_find?
  intro id
  rw [diskLayers_find?, SortedMap.find?_insert, survivors_find?]
  by_cases output : id = world.engine.nextSstSeq
  · subst output
    rw [left.outside _ fresh]
    simp [EntryFile.entries]
  · have before : (diskLayers world.disk).find? id = (world.disk.sst.find? id).map EntryFile.entries := diskLayers_find? _ _
    rw [← undisturbed.all] at before
    by_cases live : id ∈ world.engine.version.files.keys
    · rcases left.inside id ((mem_allInputs undisturbed.toStocked id).mpr live) with gone | kept
      · have missing : id ∉ stays := by
          rw [stay id live]
          exact SortedMap.find?_eq_none_iff.mp gone
        simp [output, gone, missing]
      · have present : id ∈ stays := by
          rw [stay id live, SortedMap.mem_keys_iff]
          obtain ⟨file, found⟩ : ∃ file, world.disk.sst.find? id = some file := by
            obtain ⟨row, found⟩ := SortedMap.mem_keys_iff.mp live
            obtain ⟨estimatedKeys, entries, stored, _⟩ := undisturbed.stored id row found
            exact ⟨_, stored⟩
          exact ⟨file, by rw [kept]; simpa [output] using found⟩
        rw [kept]
        simp [output, present, before]
    · have outside : id ∉ allInputs world := mt (mem_allInputs undisturbed.toStocked id).mp live
      have none : (liveLayers world).find? id = none :=
        SortedMap.find?_eq_none_iff.mpr (mt (liveLayers_keys world id).mp live)
      rw [left.outside id outside]
      simp [output, none, ← before]

theorem allWhole_reclaimed (undisturbed : Undisturbed shape world) (tables : world.engine.version.files.keys ≠ [])
    {after : Disk EntryFile} (left : PartlyReclaimed shape world (allInputs world) world.engine.nextSstSeq true after) :
    AllWhole after := by
  intro id file found
  have live := fun id => (mem_allInputs undisturbed.toStocked id).mp
  have some := allInputs_ne_nil undisturbed.toStocked tables
  have before : (world.disk.putTable world.engine.nextSstSeq (.whole (possibleKeys world.disk (allInputs world))
      (mergedEntries shape world.disk (allInputs world) true))).sst.find? id = Option.some file := by
    by_cases input : id ∈ allInputs world
    · rcases left.inside id input with gone | kept
      · rw [gone] at found
        cases found
      · rw [← kept, found]
    · rw [← left.outside id input, found]
  simp only [Disk.putTable_sst, SortedMap.find?_insert] at before
  split at before
  · cases before
    exact ⟨_, _, rfl, undisturbed.possibleKeys_pos live some⟩
  · exact undisturbed.complete id file before

/-- What the output has for a key: the newest version delivered, tombstones
apart. -/
theorem find?_mergedAll (undisturbed : Undisturbed shape world) (key : Key) :
    (Assoc.find? (mergedEntries shape world.disk (allInputs world) true) key).bind InternalValue.visible =
        ((scannedLayers shape world).lookup key).bind InternalValue.visible ∧
      ∀ value, Assoc.find? (mergedEntries shape world.disk (allInputs world) true) key = some value →
        value.isTombstone = false := by
  have live := fun id => (mem_allInputs undisturbed.toStocked id).mp
  have same : ∀ id, id ∈ (scannedLayers shape world).keys ↔ id ∈ (liveLayers world).keys := by
    intro id
    simp [SortedMap.mem_keys_iff, scannedLayers]
  have below : ∀ id ∈ (scannedLayers shape world).keys, id < world.engine.nextSstSeq :=
    fun id member => liveLayers_below undisturbed.toStocked id ((same id).mp member)
  have all : ∀ id ∈ (scannedLayers shape world).keys, id ∈ allInputs world := by
    intro id member
    exact (mem_allInputs undisturbed.toStocked id).mpr ((liveLayers_keys world id).mp ((same id).mp member))
  refine ⟨?_, ?_⟩
  · rcases Layers.find?_winners_of_all (undisturbed.ordered.thinned shape.delivered_sublist)
        (mergedEntries_scanned undisturbed.ordered live true) below all key with found | ⟨gone, value, was, tombstone, _⟩
    · rw [found]
      rfl
    · have seen : (scannedLayers shape world).lookup key = some value := was
      rw [gone, seen]
      simp [InternalValue.visible, tombstone]
  · intro value found
    have kept := (List.mem_filter.mp (Assoc.mem_of_find? found)).2
    simpa using kept

/-- For every key without a log record, the newest version delivered to the
compaction or, where that is a tombstone or there is none, the newest one that
survives shows what the newest version of all shows. -/
def VersionsKept (shape : TableShape) (world : World EntryFile) (stays : List SSTableId) : Prop :=
  ∀ key, loggedValue world.disk key = none →
    (((scannedLayers shape world).lookup key).bind InternalValue.visible).or
      (((survivors world stays).lookup key).bind InternalValue.visible) =
        ((liveLayers world).lookup key).bind InternalValue.visible

end

/-- A value in one table and its tombstone in the next. -/
def coveredPut : World EntryFile :=
  let opened : World EntryFile := ⟨⟨.empty, SortedMap.empty.insert 1 []⟩, bootstrap restingConfig [] [] []⟩
  let put := ((put (entryFormat .plain) [1] [10] 0).run .calm opened).2.2
  let flushed := ((flush (entryFormat .plain)).run .calm put).2.2
  let removed := ((remove (entryFormat .plain) [1] 0).run .calm flushed).2.2
  ((flush (entryFormat .plain)).run .calm removed).2.2

theorem coveredPut_reached : FaultFree .plain coveredPut :=
  .flush (.remove (.flush (.put (.opened restingConfig_idle (open_empty _ _)) [1] [10] 0)) [1] 0)

theorem unlinkFaults_only (number : Nat) : Allowed UnlinkFaults (.only number .unlink .failed) :=
  allowed_only (fun _ => .inl rfl) number (.inr rfl)

end Engine

end Enigma
