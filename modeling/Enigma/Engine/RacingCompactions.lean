import Enigma.Engine.ConcurrentTasks

/-! Racing compactions lose no update. Tables never change, so a merge keeps the
newest entry of a key wherever it lies among the inputs; and an edit is accepted
only while all its inputs are live, so no table is merged away twice. -/

namespace Enigma

namespace Engine

/-- Every other version of the key among the entries is older. -/
def Newest (entries : List Entry) (entry : Entry) : Prop :=
  entry ∈ entries ∧ ∀ other ∈ entries, other.1 = entry.1 → other ≠ entry → other.2.sequence < entry.2.sequence

namespace Site

/-- The entries in the table file under an id. -/
def entriesAt (site : Site) (id : SSTableId) : List Entry := ((site.sst.find? id).map EntryFile.entries).getD []

variable (shape : TableShape)

/-- The iterators of a merge deliver its inputs in full. -/
def ReadsWhole (site : Site) (move : Move) : Prop :=
  ∀ thread pins task opened, move = .resume thread pins → site.threads thread = .opening task [] opened →
    ∀ table ∈ opened, shape.delivered table.file.entries = table.file.entries

/-- The newest installed version of a key that is a value is in a live table. -/
structure Kept (site : Site) : Prop where
  stored : ∀ id ∈ site.version.files.keys, ∀ entry ∈ site.entriesAt id, entry ∈ site.installed
  newest : ∀ entry, Newest site.installed entry → entry.2.isTombstone = false →
    ∃ id ∈ site.version.files.keys, entry ∈ site.entriesAt id
  whole : ∀ thread task opened, site.threads thread = .written task opened →
    ∀ table ∈ opened, shape.delivered table.file.entries = table.file.entries

section

variable {shape} {site after : Site} {task : CompactionTask} {opened : List OpenTable}

theorem merge_of_opened (sorted : ∀ table ∈ opened, Sorted table.file)
    (whole : ∀ table ∈ opened, shape.delivered table.file.entries = table.file.entries) :
    Merged (opened.flatMap fun table => table.file.entries)
      (MergeIterator.scan (opened.map fun table => ⟨shape.delivered table.file.entries, none⟩)).1 := by
  refine (merge_of_ascending ?_).congr ?_
  · intro table member
    obtain ⟨estimatedKeys, entries, same, ascending⟩ := sorted table member
    rw [whole table member, same]
    exact ascending
  · intro entry
    rw [mem_delivered, List.mem_flatMap]
    refine exists_congr fun table => and_congr_right fun member => ?_
    rw [whole table member]

/-- A merge keeps the newest version of a key that is a value. -/
theorem newest_mem_merged (sorted : ∀ table ∈ opened, Sorted table.file)
    (whole : ∀ table ∈ opened, shape.delivered table.file.entries = table.file.entries) {entry : Entry}
    (newest : Newest (opened.flatMap fun table => table.file.entries) entry) (value : entry.2.isTombstone = false) :
    entry ∈ (merged shape task opened).entries := by
  have merge := merge_of_opened sorted whole
  obtain ⟨held, highest⟩ := newest
  obtain ⟨kept, delivered, same⟩ := merge.covers entry held
  obtain ⟨source, wins⟩ := merge.newest kept delivered
  have equal : kept = entry := by
    by_contra different
    have older := highest kept source same different
    have newer := wins entry held same.symm
    omega
  subst equal
  rw [merged_eq task opened]
  refine List.mem_filter.mpr ⟨delivered, ?_⟩
  simp [value]

theorem merged_subset (sorted : ∀ table ∈ opened, Sorted table.file) {entry : Entry}
    (member : entry ∈ (merged shape task opened).entries) : ∃ table ∈ opened, entry ∈ table.file.entries := by
  rw [merged_eq task opened] at member
  have ascending : ∀ table ∈ opened, Assoc.Ascending (shape.delivered table.file.entries) := by
    intro table inside
    obtain ⟨estimatedKeys, entries, same, ascending⟩ := sorted table inside
    rw [same]
    exact ascending.sublist (shape.delivered_sublist entries)
  have source := ((merge_of_ascending ascending).newest entry (List.mem_filter.mp member).1).1
  obtain ⟨table, inside, delivered⟩ := mem_delivered.mp source
  exact ⟨table, inside, (shape.delivered_sublist _).subset delivered⟩

/-- Live tables, their files and what was installed are as before. -/
theorem Kept.frame (kept : Kept shape site) (version : after.version = site.version)
    (files : ∀ id ∈ site.version.files.keys, after.entriesAt id = site.entriesAt id)
    (installed : after.installed = site.installed)
    (whole : ∀ thread task opened, after.threads thread = .written task opened →
      ∀ table ∈ opened, shape.delivered table.file.entries = table.file.entries) : Kept shape after where
  stored := by
    intro id listed entry held
    rw [version] at listed
    rw [files id listed] at held
    rw [installed]
    exact kept.stored id listed entry held
  newest := by
    intro entry newest value
    rw [installed] at newest
    obtain ⟨id, listed, held⟩ := kept.newest entry newest value
    exact ⟨id, version ▸ listed, (files id listed) ▸ held⟩
  whole := whole

theorem Kept.whole_enter (kept : Kept shape site) {thread : Nat} {phase : Phase} (same : after.threads = site.threads)
    (entered : ∀ task opened, phase = .written task opened →
      ∀ table ∈ opened, shape.delivered table.file.entries = table.file.entries) :
    ∀ probe task opened, (after.enter thread phase).threads probe = .written task opened →
      ∀ table ∈ opened, shape.delivered table.file.entries = table.file.entries := by
  intro probe task opened stands
  by_cases here : probe = thread
  · subst here
    rw [enter_thread] at stands
    exact entered task opened stands
  · rw [enter_other _ _ here, same] at stands
    exact kept.whole probe task opened stands

/-- A thread enters a phase, and nothing else changes. -/
theorem Kept.enter (kept : Kept shape site) {thread : Nat} {phase : Phase}
    (other : ∀ task opened, phase ≠ .written task opened) : Kept shape (site.enter thread phase) :=
  kept.frame rfl (fun _ _ => rfl) rfl (kept.whole_enter rfl fun task opened same => absurd same (other task opened))

theorem entriesAt_insert (site : Site) {id new : SSTableId} (file : EntryFile) (different : id ≠ new) :
    ({ site with sst := site.sst.insert new file } : Site).entriesAt id = site.entriesAt id := by
  simp [entriesAt, different]

theorem entriesAt_of_find? {id : SSTableId} {file : EntryFile} (found : site.sst.find? id = some file) :
    site.entriesAt id = file.entries := by
  simp [entriesAt, found]

/-- The tables after an accepted edit that adds one. -/
theorem mem_published {pins : Nat → Nat} {versions : VersionSet} {id : SSTableId} {removed ids : List SSTableId}
    {info : TableInfo} (applied : VersionSet.Applied pins site.versionSet ⟨removed, [tableMeta id info]⟩ ids versions)
    (probe : SSTableId) : probe ∈ versions.currentVersion.files.keys ↔
      probe ∈ site.version.files.keys ∧ probe ∉ removed ∨ probe = id := by
  rw [applied.current, VersionSet.mem_edited]
  simp [tableMeta, version, eq_comm]

/-- The inputs of a task whose edit is accepted are as it has read them. -/
theorem Consistent.inputs_unchanged (consistent : Consistent shape site) {thread : Nat}
    (stands : site.threads thread = .written task opened) (live : ∀ id ∈ task.inputs, id ∈ site.version.files.keys)
    {table : OpenTable} (member : table ∈ opened) :
    table.id ∈ task.inputs ∧ table.id ∈ site.version.files.keys ∧ site.entriesAt table.id = table.file.entries := by
  have fits := consistent.phases thread
  rw [stands] at fits
  have input : table.id ∈ task.inputs := by
    rw [← (fits.written task opened rfl).1]
    exact List.mem_map.mpr ⟨table, member, rfl⟩
  obtain ⟨file, found⟩ := SortedMap.mem_keys_iff.mp (consistent.live _ (live _ input))
  have same := (fits.inputs table member).2.1 file found
  exact ⟨input, live _ input, by rw [entriesAt_of_find? found, same]⟩

theorem Kept.install (kept : Kept shape site) (consistent : Consistent shape site) {thread : Nat} {pins : Nat → Nat}
    {ids : List SSTableId} {info : TableInfo} {versions : VersionSet}
    (stands : site.threads thread = .written task opened)
    (applied : VersionSet.Applied pins site.versionSet ⟨task.inputs, [tableMeta task.outputId info]⟩ ids versions) :
    Kept shape ({ site with versionSet := versions, consumed := task.inputs :: site.consumed }.enter thread
      (.reclaiming ids (some task.outputId))) := by
  have fits := consistent.phases thread
  rw [stands] at fits
  obtain ⟨order, stored⟩ := fits.written task opened rfl
  have sorted : ∀ table ∈ opened, Sorted table.file := fun table member => (fits.inputs table member).2.2
  have live : ∀ id ∈ task.inputs, id ∈ site.version.files.keys := by
    intro id member
    exact SortedMap.mem_keys_iff.mpr (Option.isSome_iff_exists.mp (applied.live id member))
  have source : ∀ table ∈ opened, ∀ entry ∈ table.file.entries, entry ∈ site.installed := by
    intro table member entry held
    obtain ⟨_, listed, same⟩ := consistent.inputs_unchanged stands live member
    exact kept.stored _ listed entry (same ▸ held)
  have output : site.entriesAt task.outputId = (merged shape task opened).entries := entriesAt_of_find? stored
  refine ⟨?_, ?_, kept.whole_enter rfl (by simp)⟩
  · intro id listed entry held
    rcases (mem_published applied id).mp listed with ⟨before, _⟩ | rfl
    · exact kept.stored id before entry held
    · change entry ∈ site.entriesAt task.outputId at held
      rw [output] at held
      obtain ⟨table, member, part⟩ := merged_subset sorted held
      exact source table member entry part
  · intro entry newest value
    obtain ⟨id, listed, held⟩ := kept.newest entry newest value
    by_cases input : id ∈ task.inputs
    · refine ⟨task.outputId, (mem_published applied _).mpr (.inr rfl), ?_⟩
      rw [← order] at input
      obtain ⟨table, member, rfl⟩ := List.mem_map.mp input
      rw [(consistent.inputs_unchanged stands live member).2.2] at held
      change entry ∈ site.entriesAt task.outputId
      rw [output]
      refine newest_mem_merged sorted (kept.whole thread task opened stands) ⟨?_, ?_⟩ value
      · exact List.mem_flatMap.mpr ⟨table, member, held⟩
      · intro other part
        obtain ⟨origin, inside, there⟩ := List.mem_flatMap.mp part
        exact newest.2 other (source origin inside other there)
    · exact ⟨id, (mem_published applied id).mpr (.inl ⟨listed, input⟩), held⟩

theorem Kept.installFlushed (kept : Kept shape site) {thread : Nat} {pins : Nat → Nat} {id : SSTableId} {file : EntryFile}
    {ids : List SSTableId} {info : TableInfo} {versions : VersionSet} (found : site.sst.find? id = some file)
    (applied : VersionSet.Applied pins site.versionSet ⟨[], [tableMeta id info]⟩ ids versions) :
    Kept shape ({ site with versionSet := versions, installed := site.installed ++ file.entries }.enter thread
      (.reclaiming ids none)) := by
  refine ⟨?_, ?_, kept.whole_enter rfl (by simp)⟩
  · intro probe listed entry held
    apply List.mem_append.mpr
    rcases (mem_published applied probe).mp listed with ⟨before, _⟩ | rfl
    · exact .inl (kept.stored probe before entry held)
    · exact .inr (entriesAt_of_find? found ▸ held)
  · intro entry newest value
    rcases List.mem_append.mp newest.1 with earlier | here
    · have before : Newest site.installed entry :=
        ⟨earlier, fun other member => newest.2 other (List.mem_append_left _ member)⟩
      obtain ⟨probe, listed, held⟩ := kept.newest entry before value
      exact ⟨probe, (mem_published applied probe).mpr (.inl ⟨listed, by simp⟩), held⟩
    · refine ⟨id, (mem_published applied id).mpr (.inr rfl), ?_⟩
      change entry ∈ site.entriesAt id
      rw [entriesAt_of_find? found]
      exact here

theorem Kept.step (kept : Kept shape site) (consistent : Consistent shape site) {move : Move}
    (whole : ReadsWhole shape site move) : Kept shape (site.step shape move) := by
  have moves := step_moves shape site move
  generalize site.step shape move = after at moves
  cases moves with
  | stays => exact kept
  | returns done => exact kept.enter (by simp)
  | @flushes thread memtable filled =>
    refine kept.frame rfl ?_ rfl (kept.whole_enter rfl (by simp))
    intro id listed
    exact entriesAt_insert site _ (ne_of_lt (consistent.below id (consistent.live id listed)))
  | picks chosen => exact kept.enter (by simp)
  | mints stands => exact kept.frame rfl (fun _ _ => rfl) rfl (kept.whole_enter rfl (by simp))
  | misses stands unreadable => exact kept.enter (by simp)
  | opens stands found accepted => exact kept.enter (by simp)
  | @writes thread pins task opened stands =>
    refine kept.frame rfl ?_ rfl (kept.whole_enter rfl ?_)
    · intro id listed
      have fits := consistent.phases thread
      rw [stands] at fits
      refine entriesAt_insert site _ ?_
      rintro rfl
      exact (fits.output _ rfl).2.1 listed
    · intro other loaded same
      cases same
      exact whole thread pins task opened rfl stands
  | fails stands unread unreadable => exact kept.enter (by simp)
  | loses stands stale => exact kept.enter (by simp)
  | installs stands found accepted applied => exact kept.install consistent stands applied
  | installsFlushed stands found accepted applied => exact kept.installFlushed found applied
  | @unlinks thread pins id later answer stands =>
    have fits := consistent.phases thread
    rw [stands] at fits
    refine kept.frame rfl ?_ rfl (kept.whole_enter rfl (by simp))
    intro probe listed
    have different : probe ≠ id := by
      rintro rfl
      exact (consistent.retired _ (fits.doomed _ (by simp [Phase.doomed]))).1 listed
    change (((site.sst.erase id).find? probe).map EntryFile.entries).getD [] = _
    rw [SortedMap.find?_erase, if_neg different]
    rfl
  | ends stands => exact kept.enter (by simp)

theorem start_kept {sst : SortedMap SSTableId EntryFile} : Kept shape (start shape sst) where
  stored := by
    intro id listed entry held
    obtain ⟨file, found, here⟩ : ∃ file, sst.find? id = some file ∧ entry ∈ file.entries := by
      change entry ∈ ((sst.find? id).map EntryFile.entries).getD [] at held
      cases found : sst.find? id with
      | none => simp [found] at held
      | some file => exact ⟨file, rfl, by simpa [found] using held⟩
    exact List.mem_flatMap.mpr ⟨(id, file), SortedMap.find?_eq_some_iff.mp found, here⟩
  newest := by
    intro entry newest _
    obtain ⟨⟨id, file⟩, bound, held⟩ := List.mem_flatMap.mp newest.1
    have found : sst.find? id = some file := SortedMap.find?_eq_some_iff.mpr bound
    refine ⟨id, SortedMap.mem_keys_iff.mpr ?_, ?_⟩
    · change ∃ row, (sst.mapValues _).find? id = some row
      rw [SortedMap.find?_mapValues, found]
      exact ⟨_, rfl⟩
    · change entry ∈ ((sst.find? id).map EntryFile.entries).getD []
      rw [found]
      exact held
  whole := by
    intro thread task opened stands
    cases stands

end

/-- Racing compactions lose no update: the newest installed version of a key, if
it is a value, is in a live table, and no table is consumed twice. -/
theorem racing_compactions_lose_nothing (shape : TableShape) {sst : SortedMap SSTableId EntryFile} {moves : List Move}
    (tables : ∀ id file, sst.find? id = some file → Sorted file)
    (whole : Along shape (ReadsWhole shape) (start shape sst) moves) :
    (∀ entry, Newest ((start shape sst).run shape moves).installed entry → entry.2.isTombstone = false →
      ∃ id ∈ ((start shape sst).run shape moves).version.files.keys,
        entry ∈ ((start shape sst).run shape moves).entriesAt id) ∧
    ((start shape sst).run shape moves).consumed.Pairwise List.Disjoint := by
  have invariant : Consistent shape ((start shape sst).run shape moves) ∧ Kept shape ((start shape sst).run shape moves) := by
    refine run_invariant (fun site => Consistent shape site ∧ Kept shape site)
      ⟨start_consistent tables, start_kept⟩ ?_ whole
    intro site move holds reads
    exact ⟨holds.1.step move, holds.2.step holds.1 reads⟩
  exact ⟨invariant.2.newest, invariant.1.disjoint⟩

theorem plain_delivered (entries : List Entry) : TableShape.plain.delivered entries = entries := by
  cases entries <;> simp [TableShape.delivered, TableShape.plain]

theorem along_of_forall {shape : TableShape} {condition : Site → Move → Prop} (always : ∀ site move, condition site move)
    (site : Site) (moves : List Move) : Along shape condition site moves := by
  induction moves generalizing site with
  | nil => trivial
  | cons move later ih => exact ⟨always site move, ih _⟩

/-- One table with one value. -/
def singleTable : SortedMap SSTableId EntryFile := SortedMap.empty.insert 1 (.whole 1 [([1], ⟨[10], false, 1⟩)])

theorem singleTable_sorted : ∀ id file, singleTable.find? id = some file → Sorted file := by
  intro id file found
  rw [singleTable, SortedMap.find?_insert] at found
  split at found
  · cases found
    exact ⟨_, _, rfl, List.pairwise_singleton _ _⟩
  · cases found

/-- Two compactions of the same table, both of which have opened it before the
second one installs. In the end the second one unlinks it. -/
def closeRace : List Move :=
  [.start 0 .compactNow, .start 1 .compactNow, .resume 0 fun _ => 0, .resume 0 fun _ => 0, .resume 1 fun _ => 0,
    .resume 1 fun _ => 0, .resume 1 fun _ => 0, .resume 1 fun _ => 0, .resume 0 fun _ => 0, .resume 0 fun _ => 0,
    .resume 1 fun _ => 0, .resume 1 fun _ => 0]

theorem racing_compactions_lose_nothing_close_race :
    ∃ id ∈ ((start .plain singleTable).run .plain closeRace).version.files.keys,
      (([1], ⟨[10], false, 1⟩) : Entry) ∈ ((start .plain singleTable).run .plain closeRace).entriesAt id :=
  (racing_compactions_lose_nothing .plain singleTable_sorted
    (along_of_forall (fun _ _ _ _ _ _ _ _ _ _ => plain_delivered _) _ closeRace)).1 _
    (by refine ⟨?_, ?_⟩ <;> decide +kernel) rfl

end Site

end Engine

end Enigma
