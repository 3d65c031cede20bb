import Enigma.Storage.Types

/-! Versions of the live table set. A version is a shared object: readers pin
it by holding a reference, and a table file may be reclaimed once no surviving
version names it. -/

namespace Enigma

structure Version where
  /-- Identity of the shared object. -/
  serial : Nat
  files : SortedMap SSTableId SSTableMeta
  deriving DecidableEq

structure VersionEdit where
  removed : List SSTableId
  added : List SSTableMeta

structure VersionSet where
  currentVersion : Version
  liveVersions : List Version
  pendingObsoleteIds : SortedMap SSTableId Unit
  deriving DecidableEq

def Version.sstMetaToVector (version : Version) : List SSTableMeta :=
  version.files.bindings.map Prod.snd

/-- Tables that are known by their own ids. -/
theorem Version.metas_ids {version : Version} (named : ∀ id row, version.files.find? id = some row → row.id = id) :
    version.sstMetaToVector.map SSTableMeta.id = version.files.keys := by
  rw [sstMetaToVector, List.map_map, SortedMap.keys]
  apply List.map_congr_left
  intro binding member
  exact named binding.1 binding.2 (SortedMap.find?_eq_some_iff.mpr member)

namespace VersionSet

def new (sstMeta : SortedMap SSTableId SSTableMeta) : VersionSet :=
  ⟨⟨0, sstMeta⟩, [⟨0, sstMeta⟩], .empty⟩

/-- `pins` counts the references that readers hold to each version. A version
that only the set itself owns is dropped; ids that no surviving version names
are handed out for reclaiming. -/
def purgeObsoleteFiles (pins : Nat → Nat) (set : VersionSet) : List SSTableId × VersionSet :=
  let surviving := set.liveVersions.filter fun version =>
    version.serial = set.currentVersion.serial ∨ pins version.serial ≠ 0
  let needed := fun id => (set.currentVersion :: surviving).any fun version => (version.files.find? id).isSome
  let reclaimable := set.pendingObsoleteIds.keys.filter fun id => !needed id
  (reclaimable,
    { set with
      liveVersions := surviving
      pendingObsoleteIds := reclaimable.foldl SortedMap.erase set.pendingObsoleteIds })

def appendVersion (pins : Nat → Nat) (set : VersionSet) (newVersion : Version) (obsoleteIds : List SSTableId) :
    List SSTableId × VersionSet :=
  purgeObsoleteFiles pins
    { currentVersion := newVersion
      liveVersions := set.liveVersions ++ [newVersion]
      pendingObsoleteIds := obsoleteIds.foldl (fun pending id => pending.insert id ()) set.pendingObsoleteIds }

def staleVersion : Error := ⟨.staleVersion, "VersionEdit already consumed"⟩

/-- The file map an edit leads to. -/
def edited (files : SortedMap SSTableId SSTableMeta) (edit : VersionEdit) : SortedMap SSTableId SSTableMeta :=
  edit.added.foldl (fun current row => current.insert row.id row) (edit.removed.foldl SortedMap.erase files)

def apply (pins : Nat → Nat) (set : VersionSet) (edit : VersionEdit) :
    Except Error (List SSTableId × VersionSet) :=
  if edit.removed.all fun id => (set.currentVersion.files.find? id).isSome then
    let nextVersion : Version := ⟨set.currentVersion.serial + 1, edited set.currentVersion.files edit⟩
    .ok (appendVersion pins set nextVersion edit.removed)
  else .error staleVersion

/-- No reader and no earlier version is left over: the state between calls of
an engine that nobody reads from concurrently. -/
structure Quiet (set : VersionSet) : Prop where
  alone : ∀ version ∈ set.liveVersions, version = set.currentVersion
  settled : set.pendingObsoleteIds = .empty

theorem new_quiet (sstMeta : SortedMap SSTableId SSTableMeta) : Quiet (new sstMeta) :=
  ⟨by simp [new], rfl⟩

theorem foldl_mark_find? (ids : List SSTableId) (map : SortedMap SSTableId Unit) (id : SSTableId) :
    (ids.foldl (fun pending id => pending.insert id ()) map).find? id =
      if id ∈ ids then some () else map.find? id := by
  induction ids generalizing map with
  | nil => simp
  | cons first rest ih =>
    rw [List.foldl_cons, ih, SortedMap.find?_insert]
    by_cases later : id ∈ rest <;> by_cases here : id = first <;> simp [later, here]

/-- A table is there after an edit when it was and is not removed, or is added. -/
theorem mem_edited {files : SortedMap SSTableId SSTableMeta} {edit : VersionEdit} {id : SSTableId} :
    id ∈ (edited files edit).keys ↔ (id ∈ files.keys ∧ id ∉ edit.removed) ∨ ∃ row ∈ edit.added, row.id = id := by
  have general : ∀ (rows : List SSTableMeta) (map : SortedMap SSTableId SSTableMeta),
      id ∈ (rows.foldl (fun current row => current.insert row.id row) map).keys ↔
        id ∈ map.keys ∨ ∃ row ∈ rows, row.id = id := by
    intro rows
    induction rows with
    | nil => simp
    | cons row later ih =>
      intro map
      rw [List.foldl_cons, ih, SortedMap.mem_keys_insert]
      simp only [List.mem_cons, exists_eq_or_imp, @eq_comm _ id row.id]
      tauto
  have erased : id ∈ (edit.removed.foldl SortedMap.erase files).keys ↔ id ∈ files.keys ∧ id ∉ edit.removed := by
    rw [SortedMap.mem_keys_iff, SortedMap.foldl_erase_find?, SortedMap.mem_keys_iff]
    by_cases removed : id ∈ edit.removed <;> simp [removed]
  rw [edited, general, erased]

/-- What an edit that is accepted does. -/
structure Applied (pins : Nat → Nat) (set : VersionSet) (edit : VersionEdit) (returned : List SSTableId)
    (after : VersionSet) : Prop where
  live : ∀ id ∈ edit.removed, (set.currentVersion.files.find? id).isSome
  current : after.currentVersion = ⟨set.currentVersion.serial + 1, edited set.currentVersion.files edit⟩
  versions : after.liveVersions = (set.liveVersions ++ [after.currentVersion]).filter fun version =>
    version.serial = after.currentVersion.serial ∨ pins version.serial ≠ 0
  unused : ∀ id, id ∈ returned ↔ (id ∈ edit.removed ∨ id ∈ set.pendingObsoleteIds.keys) ∧
    ∀ version ∈ after.currentVersion :: after.liveVersions, version.files.find? id = none
  pending : ∀ id, id ∈ after.pendingObsoleteIds.keys ↔
    (id ∈ edit.removed ∨ id ∈ set.pendingObsoleteIds.keys) ∧ id ∉ returned
  nodup : returned.Nodup

theorem apply_applied {pins : Nat → Nat} {set after : VersionSet} {edit : VersionEdit} {returned : List SSTableId}
    (applied : apply pins set edit = .ok (returned, after)) : Applied pins set edit returned after := by
  simp only [apply] at applied
  split at applied
  · rename_i accepted
    simp only [appendVersion, purgeObsoleteFiles, Except.ok.injEq, Prod.mk.injEq] at applied
    obtain ⟨rfl, rfl⟩ := applied
    have marked : ∀ id, id ∈ (edit.removed.foldl (fun pending id => pending.insert id ()) set.pendingObsoleteIds).keys ↔
        id ∈ edit.removed ∨ id ∈ set.pendingObsoleteIds.keys := by
      intro id
      rw [SortedMap.mem_keys_iff, foldl_mark_find?, SortedMap.mem_keys_iff]
      by_cases removed : id ∈ edit.removed <;> simp [removed]
    refine ⟨List.all_eq_true.mp accepted, rfl, rfl, ?_, ?_, ?_⟩
    · intro id
      rw [List.mem_filter, marked, Bool.not_eq_true', List.any_eq_false]
      simp only [Bool.not_eq_true, Option.isSome_eq_false_iff, Option.isNone_iff_eq_none]
    · intro id
      rw [SortedMap.mem_keys_iff, SortedMap.foldl_erase_find?, ← marked]
      split
      · rename_i handed
        exact ⟨fun held => absurd held (by simp), fun held => absurd handed held.2⟩
      · rename_i kept
        rw [← SortedMap.mem_keys_iff]
        exact ⟨fun held => ⟨held, kept⟩, fun held => held.1⟩
    · apply List.Nodup.filter
      rw [SortedMap.keys, List.nodup_iff_pairwise_ne, List.pairwise_map]
      exact (SortedMap.ascending _).imp fun less => ne_of_lt less
  · cases applied

/-- An edit is refused exactly when a table it removes is no longer there. -/
theorem apply_error_iff {pins : Nat → Nat} {set : VersionSet} {edit : VersionEdit} {error : Error} :
    apply pins set edit = .error error ↔
      error = staleVersion ∧ ∃ id ∈ edit.removed, set.currentVersion.files.find? id = none := by
  simp only [apply]
  split
  · rename_i accepted
    constructor
    · intro refused
      cases refused
    · rintro ⟨_, id, removed, missing⟩
      have found := List.all_eq_true.mp accepted id removed
      rw [missing] at found
      cases found
  · rename_i refused
    rw [List.all_eq_true] at refused
    push Not at refused
    obtain ⟨id, removed, missing⟩ := refused
    refine ⟨?_, fun same => by rw [same.1]⟩
    intro same
    cases same
    exact ⟨rfl, id, removed, by simpa using missing⟩

/-- An edit of a quiet set whose removed tables are live and stay removed: the
new file map is published, exactly the removed ids are handed out, and the set
is quiet again. -/
theorem apply_quiet {set : VersionSet} (edit : VersionEdit) (quiet : Quiet set)
    (live : ∀ id ∈ edit.removed, (set.currentVersion.files.find? id).isSome)
    (replaced : ∀ id ∈ edit.removed, (edited set.currentVersion.files edit).find? id = none) :
    ∃ reclaimable after, apply (fun _ => 0) set edit = .ok (reclaimable, after) ∧ Quiet after ∧
      after.currentVersion.files = edited set.currentVersion.files edit ∧
      reclaimable.Nodup ∧ ∀ id, id ∈ reclaimable ↔ id ∈ edit.removed := by
  rcases answer : apply (fun _ => 0) set edit with error | ⟨reclaimable, after⟩
  · obtain ⟨_, id, removed, missing⟩ := apply_error_iff.mp answer
    have found := live id removed
    rw [missing] at found
    cases found
  · have applied := apply_applied answer
    have files : after.currentVersion.files = edited set.currentVersion.files edit := by rw [applied.current]
    -- the old version has no owner but the list, so only the new one survives
    have alone : ∀ version ∈ after.liveVersions, version = after.currentVersion := by
      intro version member
      rw [applied.versions, List.mem_filter] at member
      obtain ⟨held, survives⟩ := member
      rcases List.mem_append.mp held with old | new
      · rw [quiet.alone version old, applied.current] at survives
        simp at survives
      · exact List.mem_singleton.mp new
    have reclaimed : ∀ id, id ∈ reclaimable ↔ id ∈ edit.removed := by
      intro id
      rw [applied.unused, quiet.settled]
      simp only [SortedMap.keys, SortedMap.empty, List.map_nil, List.not_mem_nil, or_false]
      refine ⟨fun handed => handed.1, fun removed => ⟨removed, ?_⟩⟩
      intro version member
      have newest : version = after.currentVersion := by
        rcases List.mem_cons.mp member with same | survives
        · exact same
        · exact alone version survives
      rw [newest, files]
      exact replaced id removed
    refine ⟨reclaimable, after, rfl, ⟨alone, ?_⟩, files, applied.nodup, reclaimed⟩
    apply SortedMap.ext_find?
    intro id
    rw [SortedMap.find?_empty, SortedMap.find?_eq_none_iff, applied.pending, reclaimed, quiet.settled]
    simp [SortedMap.keys, SortedMap.empty]

end VersionSet

end Enigma
