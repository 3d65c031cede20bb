import Enigma.Engine.VersionSet

/-! Readers and publishers of versions, in any order. A reader holds references
to versions; whoever publishes an edit unlinks the files that the set hands out.
No file of a version that is current or held is unlinked. -/

namespace Enigma

/-- An edit that was accepted: the ids it removed and the ids handed out. -/
structure Publication where
  removed : List SSTableId
  returned : List SSTableId

/-- The version set with its readers: the references they hold, the table files
in the directory, and the edits so far, the latest first. -/
structure VersionUse where
  set : VersionSet
  readers : List Version
  files : List SSTableId
  log : List Publication

inductive VersionCall where
  | getCurrent
  /-- A reader gives up one of its references. -/
  | release (version : Version)
  | apply (edit : VersionEdit)

namespace VersionUse

def start (sstMeta : SortedMap SSTableId SSTableMeta) : VersionUse := ⟨.new sstMeta, [], sstMeta.keys, []⟩

def pins (use : VersionUse) (serial : Nat) : Nat := use.readers.countP fun version => version.serial = serial

def getCurrent (use : VersionUse) : VersionUse := { use with readers := use.set.currentVersion :: use.readers }

def release (use : VersionUse) (version : Version) : VersionUse := { use with readers := use.readers.erase version }

/-- The files of the added tables are written first, and the ids that are handed
out are unlinked. -/
def apply (use : VersionUse) (edit : VersionEdit) : Except Error (List SSTableId) × VersionUse :=
  let written := edit.added.map SSTableMeta.id ++ use.files
  match use.set.apply use.pins edit with
  | .error error => (.error error, { use with files := written })
  | .ok (returned, after) =>
    (.ok returned,
      { use with
        set := after
        files := written.filter fun id => id ∉ returned
        log := ⟨edit.removed, returned⟩ :: use.log })

def step (use : VersionUse) : VersionCall → VersionUse
  | .getCurrent => use.getCurrent
  | .release version => use.release version
  | .apply edit => (use.apply edit).2

def run (sstMeta : SortedMap SSTableId SSTableMeta) (calls : List VersionCall) : VersionUse :=
  calls.foldl step (start sstMeta)

theorem pins_ne_zero {use : VersionUse} {version : Version} (held : version ∈ use.readers) : use.pins version.serial ≠ 0 := by
  have counted : 0 < use.pins version.serial := List.countP_pos_iff.mpr ⟨version, held, by simp⟩
  omega

/-- How often the edits have handed an id out. -/
def returns (log : List Publication) (id : SSTableId) : Nat := log.countP fun publication => id ∈ publication.returned

/-- How often the edits have removed an id. -/
def removals (log : List Publication) (id : SSTableId) : Nat := log.countP fun publication => id ∈ publication.removed

def ReturnedSinceLastRemoval (log : List Publication) (id : SSTableId) : Prop :=
  ∃ since last before, log = since ++ last :: before ∧ id ∈ last.removed ∧
    (∀ publication ∈ since, id ∉ publication.removed) ∧ ∃ publication ∈ since ++ [last], id ∈ publication.returned

/-- Every reference is to a version that the set still knows, the files of these
versions are in the directory, and the ids that wait are those removed but not
handed out since. -/
structure Sound (use : VersionUse) : Prop where
  serials : ∀ version ∈ use.set.liveVersions, version.serial ≤ use.set.currentVersion.serial
  current : use.set.currentVersion ∈ use.set.liveVersions
  readers : ∀ version ∈ use.readers, version ∈ use.set.liveVersions
  files : ∀ version ∈ use.set.liveVersions, ∀ id ∈ version.files.keys, id ∈ use.files
  balance : ∀ id, returns use.log id + (if id ∈ use.set.pendingObsoleteIds.keys then 1 else 0) ≤ removals use.log id
  owed : ∀ id, 0 < removals use.log id → id ∈ use.set.pendingObsoleteIds.keys ∨ ReturnedSinceLastRemoval use.log id

theorem sound_start (sstMeta : SortedMap SSTableId SSTableMeta) : Sound (start sstMeta) where
  serials := by simp [start, VersionSet.new]
  current := by simp [start, VersionSet.new]
  readers := by simp [start]
  files := by simp [start, VersionSet.new]
  balance := by simp [start, VersionSet.new, returns, removals, SortedMap.keys, SortedMap.empty]
  owed := by simp [start, removals]

theorem Sound.getCurrent {use : VersionUse} (sound : Sound use) : Sound use.getCurrent :=
  { sound with
    readers := by
      intro version held
      rcases List.mem_cons.mp held with newest | earlier
      · exact newest ▸ sound.current
      · exact sound.readers version earlier }

theorem Sound.release {use : VersionUse} (sound : Sound use) (version : Version) : Sound (use.release version) :=
  { sound with readers := fun other held => sound.readers other (List.mem_of_mem_erase held) }

section

variable {use : VersionUse} {edit : VersionEdit} {returned : List SSTableId} {after : VersionSet}

/-- An accepted edit keeps the versions that are held. -/
theorem Sound.held_survives (sound : Sound use) (applied : VersionSet.Applied use.pins use.set edit returned after)
    {version : Version} (held : version ∈ use.readers) : version ∈ after.liveVersions := by
  rw [applied.versions, List.mem_filter]
  exact ⟨List.mem_append_left _ (sound.readers version held), decide_eq_true (.inr (pins_ne_zero held))⟩

theorem current_survives (applied : VersionSet.Applied use.pins use.set edit returned after) :
    after.currentVersion ∈ after.liveVersions := by
  rw [applied.versions, List.mem_filter]
  exact ⟨by simp, by simp⟩

theorem survivor (applied : VersionSet.Applied use.pins use.set edit returned after) {version : Version}
    (member : version ∈ after.liveVersions) : version ∈ use.set.liveVersions ∨ version = after.currentVersion := by
  rw [applied.versions, List.mem_filter] at member
  rcases List.mem_append.mp member.1 with old | new
  · exact .inl old
  · exact .inr (List.mem_singleton.mp new)

/-- Nothing that is handed out is in use. -/
theorem Sound.unused (sound : Sound use) (applied : VersionSet.Applied use.pins use.set edit returned after)
    {id : SSTableId} (handed : id ∈ returned) : id ∉ after.currentVersion.files.keys ∧
      ∀ version ∈ use.readers, id ∉ version.files.keys := by
  have free := ((applied.unused id).mp handed).2
  constructor
  · exact SortedMap.find?_eq_none_iff.mp (free _ (by simp))
  · intro version held
    exact SortedMap.find?_eq_none_iff.mp (free version (List.mem_cons_of_mem _ (sound.held_survives applied held)))

theorem Sound.files_after (sound : Sound use) (applied : VersionSet.Applied use.pins use.set edit returned after)
    {version : Version} (member : version ∈ after.liveVersions) {id : SSTableId} (names : id ∈ version.files.keys) :
    id ∈ (edit.added.map SSTableMeta.id ++ use.files).filter fun id => id ∉ returned := by
  have kept : id ∉ returned := by
    intro handed
    have free := ((applied.unused id).mp handed).2 version (List.mem_cons_of_mem _ member)
    exact SortedMap.find?_eq_none_iff.mp free names
  refine List.mem_filter.mpr ⟨List.mem_append.mpr ?_, by simpa using kept⟩
  rcases survivor applied member with old | new
  · exact .inr (sound.files version old id names)
  · rw [new, applied.current] at names
    rcases VersionSet.mem_edited.mp names with ⟨before, _⟩ | ⟨row, added, same⟩
    · exact .inr (sound.files _ sound.current id before)
    · exact .inl (List.mem_map.mpr ⟨row, added, same⟩)

/-- One publication more: every id handed out had been waiting or is removed by it. -/
theorem Sound.balance_after (sound : Sound use) (applied : VersionSet.Applied use.pins use.set edit returned after)
    (id : SSTableId) : returns (⟨edit.removed, returned⟩ :: use.log) id +
      (if id ∈ after.pendingObsoleteIds.keys then 1 else 0) ≤ removals (⟨edit.removed, returned⟩ :: use.log) id := by
  have before := sound.balance id
  have handed := applied.unused id
  have waits := applied.pending id
  simp only [returns, removals, List.countP_cons, decide_eq_true_eq] at before ⊢
  by_cases out : id ∈ returned
  · have source := (handed.mp out).1
    have gone : id ∉ after.pendingObsoleteIds.keys := fun held => (waits.mp held).2 out
    rcases source with removed | waiting
    · simp only [out, gone, removed, ↓reduceIte]
      omega
    · simp only [out, gone, waiting, ↓reduceIte] at before ⊢
      omega
  · simp only [out, ↓reduceIte]
    by_cases removed : id ∈ edit.removed
    · simp only [removed, ↓reduceIte]
      split <;> omega
    · have same : id ∈ after.pendingObsoleteIds.keys ↔ id ∈ use.set.pendingObsoleteIds.keys := by simp [waits, removed, out]
      simp only [same, removed, ↓reduceIte]
      omega

theorem exists_last_removal {log : List Publication} {id : SSTableId} (past : 0 < removals log id) :
    ∃ since last before, log = since ++ last :: before ∧ id ∈ last.removed ∧
      ∀ publication ∈ since, id ∉ publication.removed := by
  induction log with
  | nil => simp [removals] at past
  | cons latest log ih =>
    by_cases removed : id ∈ latest.removed
    · exact ⟨[], latest, log, rfl, removed, by simp⟩
    · have earlier : 0 < removals log id := by simpa [removals, List.countP_cons, removed] using past
      obtain ⟨since, last, before, split, takes, none⟩ := ih earlier
      refine ⟨latest :: since, last, before, by rw [split, List.cons_append], takes, ?_⟩
      intro publication member
      rcases List.mem_cons.mp member with here | behind
      · rw [here]
        exact removed
      · exact none publication behind

theorem Sound.owed_after (sound : Sound use) (applied : VersionSet.Applied use.pins use.set edit returned after)
    (id : SSTableId) (past : 0 < removals (⟨edit.removed, returned⟩ :: use.log) id) :
    id ∈ after.pendingObsoleteIds.keys ∨ ReturnedSinceLastRemoval (⟨edit.removed, returned⟩ :: use.log) id := by
  rw [applied.pending]
  by_cases removed : id ∈ edit.removed
  · by_cases out : id ∈ returned
    · exact .inr ⟨[], ⟨edit.removed, returned⟩, use.log, rfl, removed, by simp, ⟨edit.removed, returned⟩, by simp, out⟩
    · exact .inl ⟨.inl removed, out⟩
  · have earlier : 0 < removals use.log id := by simpa [removals, List.countP_cons, removed] using past
    rcases sound.owed id earlier with waiting | ⟨since, last, before, split, takes, none, publication, among, out⟩
    · by_cases out : id ∈ returned
      · obtain ⟨since, last, before, split, takes, none⟩ := exists_last_removal earlier
        refine .inr ⟨⟨edit.removed, returned⟩ :: since, last, before, by rw [split, List.cons_append], takes, ?_,
          ⟨edit.removed, returned⟩, by simp, out⟩
        exact List.forall_mem_cons.mpr ⟨removed, none⟩
      · exact .inl ⟨.inr waiting, out⟩
    · refine .inr ⟨⟨edit.removed, returned⟩ :: since, last, before, by rw [split, List.cons_append], takes, ?_,
        publication, List.mem_cons_of_mem _ among, out⟩
      exact List.forall_mem_cons.mpr ⟨removed, none⟩

/-- The state after an edit. -/
theorem apply_cases (use : VersionUse) (edit : VersionEdit) :
    (∃ error, use.set.apply use.pins edit = .error error ∧
      use.apply edit = (.error error, { use with files := edit.added.map SSTableMeta.id ++ use.files })) ∨
    ∃ returned after, VersionSet.Applied use.pins use.set edit returned after ∧
      use.apply edit = (.ok returned,
        { use with
          set := after
          files := (edit.added.map SSTableMeta.id ++ use.files).filter fun id => id ∉ returned
          log := ⟨edit.removed, returned⟩ :: use.log }) := by
  rcases answer : use.set.apply use.pins edit with error | ⟨returned, after⟩
  · exact .inl ⟨error, rfl, by simp only [apply, answer]⟩
  · exact .inr ⟨returned, after, VersionSet.apply_applied answer, by simp only [apply, answer]⟩

theorem Sound.apply (sound : Sound use) (edit : VersionEdit) : Sound (use.apply edit).2 := by
  rcases use.apply_cases edit with ⟨error, _, result⟩ | ⟨returned, after, applied, result⟩
  · rw [result]
    exact { sound with
      files := fun version member id names => List.mem_append_right _ (sound.files version member id names) }
  · rw [result]
    exact {
      serials := by
        intro version member
        rcases survivor applied member with old | new
        · have earlier := sound.serials version old
          rw [applied.current]
          exact Nat.le_succ_of_le earlier
        · exact new ▸ le_rfl
      current := current_survives applied
      readers := fun version held => sound.held_survives applied held
      files := fun version member id names => sound.files_after applied member names
      balance := sound.balance_after applied
      owed := sound.owed_after applied }

theorem Sound.step (sound : Sound use) (call : VersionCall) : Sound (use.step call) := by
  cases call with
  | getCurrent => exact sound.getCurrent
  | release version => exact sound.release version
  | apply edit => exact sound.apply edit

theorem run_sound (sstMeta : SortedMap SSTableId SSTableMeta) (calls : List VersionCall) : Sound (run sstMeta calls) := by
  have general : ∀ (calls : List VersionCall) (use : VersionUse), Sound use → Sound (calls.foldl VersionUse.step use) := by
    intro calls
    induction calls with
    | nil => exact fun _ sound => sound
    | cons call later ih => exact fun use sound => ih _ (sound.step call)
  exact general calls _ (sound_start sstMeta)

/-- Without readers of older versions nothing waits but what is live again. -/
theorem Sound.all_returned (sound : Sound use) (applied : VersionSet.Applied use.pins use.set edit returned after)
    (newest : ∀ version ∈ use.readers, version = after.currentVersion) {id : SSTableId}
    (past : 0 < removals (⟨edit.removed, returned⟩ :: use.log) id) (gone : id ∉ after.currentVersion.files.keys) :
    ReturnedSinceLastRemoval (⟨edit.removed, returned⟩ :: use.log) id := by
  have serial : after.currentVersion.serial = use.set.currentVersion.serial + 1 := by rw [applied.current]
  -- a reference is to an older version, so there is none
  have unread : ∀ version, version ∉ use.readers := by
    intro version held
    have older := sound.serials version (sound.readers version held)
    rw [newest version held] at older
    omega
  have alone : ∀ version ∈ after.liveVersions, version = after.currentVersion := by
    intro version member
    rcases survivor applied member with old | new
    · have older := sound.serials version old
      have unpinned : use.pins version.serial = 0 :=
        List.countP_eq_zero.mpr fun other held => absurd held (unread other)
      rw [applied.versions, List.mem_filter, decide_eq_true_eq] at member
      rcases member.2 with same | pinned
      · omega
      · exact absurd unpinned pinned
    · exact new
  rcases sound.owed_after applied id past with waiting | handed
  · obtain ⟨source, kept⟩ := (applied.pending id).mp waiting
    refine absurd ((applied.unused id).mpr ⟨source, ?_⟩) kept
    intro version member
    have same : version = after.currentVersion := by
      rcases List.mem_cons.mp member with here | survives
      · exact here
      · exact alone version survives
    rw [same]
    exact SortedMap.find?_eq_none_iff.mpr gone
  · exact handed

end

/-- What edits reclaim in a state. -/
structure Reclaims (use : VersionUse) : Prop where
  /-- An id that is handed out is neither current nor held, and is handed out once. -/
  unused : ∀ edit returned, (use.apply edit).1 = .ok returned → returned.Nodup ∧ ∀ id ∈ returned,
    id ∉ (use.apply edit).2.set.currentVersion.files.keys ∧
      ∀ version ∈ (use.apply edit).2.readers, id ∉ version.files.keys
  once : ∀ id, returns use.log id ≤ removals use.log id
  /-- When no reader holds an older version, whatever was removed and is not
  current has been handed out since. -/
  complete : ∀ edit returned, (use.apply edit).1 = .ok returned →
    (∀ version ∈ (use.apply edit).2.readers, version = (use.apply edit).2.set.currentVersion) →
    ∀ id, 0 < removals (use.apply edit).2.log id → id ∉ (use.apply edit).2.set.currentVersion.files.keys →
      ReturnedSinceLastRemoval (use.apply edit).2.log id
  /-- The only error is that of a table no longer there; it leaves the set as it is. -/
  stale : ∀ edit error, (use.apply edit).1 = .error error → error = VersionSet.staleVersion ∧
    (∃ id ∈ edit.removed, id ∉ use.set.currentVersion.files.keys) ∧ (use.apply edit).2.set = use.set
  present : ∀ version, version = use.set.currentVersion ∨ version ∈ use.readers → ∀ id ∈ version.files.keys, id ∈ use.files

/-- Files of versions in use are never reclaimed, whatever readers and
publishers do. -/
theorem versions_in_use_keep_files (sstMeta : SortedMap SSTableId SSTableMeta) (calls : List VersionCall) :
    Reclaims (run sstMeta calls) := by
  have sound := run_sound sstMeta calls
  generalize run sstMeta calls = use at sound
  refine ⟨?_, ?_, ?_, ?_, ?_⟩
  · intro edit returned accepted
    rcases use.apply_cases edit with ⟨error, _, result⟩ | ⟨handed, after, applied, result⟩ <;> rw [result] at accepted ⊢
    · cases accepted
    · cases accepted
      exact ⟨applied.nodup, fun id member => sound.unused applied member⟩
  · intro id
    have balance := sound.balance id
    omega
  · intro edit returned accepted newest id past gone
    rcases use.apply_cases edit with ⟨error, _, result⟩ | ⟨handed, after, applied, result⟩ <;>
      rw [result] at accepted newest past gone ⊢
    · cases accepted
    · exact sound.all_returned applied newest past gone
  · intro edit error refused
    rcases use.apply_cases edit with ⟨reason, answer, result⟩ | ⟨handed, after, applied, result⟩ <;> rw [result] at refused ⊢
    · cases refused
      obtain ⟨stale, id, removed, missing⟩ := VersionSet.apply_error_iff.mp answer
      exact ⟨stale, ⟨id, removed, SortedMap.find?_eq_none_iff.mp missing⟩, rfl⟩
    · cases refused
  · intro version used
    have live : version ∈ use.set.liveVersions := by
      rcases used with newest | held
      · exact newest ▸ sound.current
      · exact sound.readers version held
    exact sound.files version live

end VersionUse

end Enigma
