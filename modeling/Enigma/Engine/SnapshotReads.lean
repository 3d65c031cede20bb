import Enigma.Engine.CachedReads
import Enigma.Engine.PinnedVersions

/-! Reads of one version while others publish. A call of `get` takes the current version and
looks its tables up through the table cache; at the same time tables are written and
published, and whoever publishes evicts and unlinks the tables that were handed out to it,
one after the other. -/

namespace Enigma

namespace SnapshotReads

/-- `unpublished` has the tables that are written but in no version yet, and `obsolete` those
that were handed out for reclaiming and are still there. -/
structure State where
  tables : TableCache.State
  use : VersionUse
  unpublished : List UInt64
  obsolete : List UInt64
  pinned : Nat → Option Version

inductive Act where
  | write (id : UInt64) (file : Bytes)
  | apply (edit : VersionEdit)
  | get (n : Nat) (key : Key)
  | finish (n : Nat)
  | proceed (act : TableCache.Act)
  | evict (id : UInt64)
  | remove (id : UInt64)

/-- The steps of a call that has begun, and those of calls that only want a reader. -/
def isOfCall : TableCache.Act → Bool
  | .ask _ | .open _ | .insert _ | .use _ | .keep _ _ | .drop _ => true
  | _ => false

/-- The tables of a version from the newest on, as `lookup_internal` goes through them. -/
def newestFirst (version : Version) : List UInt64 := version.files.keys.reverse.map UInt64.ofNat

def handedOut : Except Error (List SSTableId) → List UInt64
  | .ok ids => ids.map UInt64.ofNat
  | .error _ => []

namespace State

def new (capacity numShards : UInt64) : Option State := do
  return ⟨← TableCache.State.new capacity numShards, .start .empty, [], [], fun _ => none⟩

end State

def step (charge : SSTableReader → UInt64) (state : State) : Act → Option State
  | .write id file => do
    let tables ← TableCache.step charge state.tables (.publish id file)
    some { state with tables, unpublished := id :: state.unpublished }
  | .apply edit =>
    -- what is added was written before, by the one who publishes it
    if edit.added.all (·.id ∈ state.unpublished.map UInt64.toNat) then
      some { state with
        use := (state.use.apply edit).2
        unpublished := state.unpublished.filter fun id => id.toNat ∉ edit.added.map SSTableMeta.id
        obsolete := handedOut (state.use.apply edit).1 ++ state.obsolete }
    else none
  | .get n key => do
    let version := state.use.set.currentVersion
    let tables ← TableCache.step charge state.tables (.lookup n key (newestFirst version))
    some { state with tables, use := state.use.getCurrent, pinned := Function.update state.pinned n (some version) }
  | .finish n =>
    match state.tables.calls n, state.pinned n with
    | .answered _ _ _, some version =>
      some { state with use := state.use.release version, pinned := Function.update state.pinned n none }
    | _, _ => none
  | .proceed act =>
    if isOfCall act then (TableCache.step charge state.tables act).map fun tables => { state with tables } else none
  | .evict id =>
    if id ∈ state.obsolete then
      (TableCache.step charge state.tables (.evict id)).map fun tables => { state with tables }
    else none
  | .remove id =>
    if id ∈ state.obsolete then
      (TableCache.step charge state.tables (.remove id)).map fun tables =>
        { state with tables, obsolete := state.obsolete.erase id }
    else none

/-- The tables that the lookup of a call goes through. -/
def lookedUp : TableCache.Phase → Option (List UInt64)
  | .asking _ (.lookup _ all _) | .missed _ (.lookup _ all _) | .opened _ _ (.lookup _ all _)
  | .holding _ _ (.lookup _ all _) | .answered _ all _ => some all
  | _ => none

section Tables

variable {charge : SSTableReader → UInt64} {tables after : TableCache.State} {n : Nat} {all : List UInt64}

theorem lookedUp_next (key : Key) (all rest : List UInt64) : lookedUp (TableCache.next key all rest) = some all := by
  cases rest <;> rfl

theorem lookedUp_enter {m : Nat} {old phase : TableCache.Phase} (was : tables.calls m = old)
    (keeps : lookedUp old = some all → lookedUp phase = some all) (looks : lookedUp (tables.calls n) = some all) :
    lookedUp ((tables.enter m phase).calls n) = some all := by
  change lookedUp (Function.update tables.calls m phase n) = some all
  by_cases here : n = m
  · rw [here, Function.update_self]
    rw [here, was] at looks
    exact keeps looks
  · rw [Function.update_of_ne here]
    exact looks

/-- A lookup goes through the same tables to its end. -/
theorem lookedUp_kept (uses : TableCache.Uses charge tables after) (looks : lookedUp (tables.calls n) = some all) :
    lookedUp (after.calls n) = some all := by
  cases uses with
  | evict id clients erased => exact looks
  | lookup m key ids was written => exact lookedUp_enter was (fun idle => nomatch idle) looks
  | keep m id was => exact lookedUp_enter was (fun idle => nomatch idle) looks
  | hit m id purpose cache handle was found =>
    exact lookedUp_enter was (fun same => by cases purpose <;> exact same) looks
  | miss m id purpose cache was found =>
    exact lookedUp_enter was (fun same => by cases purpose <;> exact same) looks
  | absent m id purpose was gone => exact lookedUp_enter was (fun same => by cases purpose <;> exact same) looks
  | refuse m id purpose file error was there refused =>
    exact lookedUp_enter was (fun same => by cases purpose <;> exact same) looks
  | «open» m id purpose file reader was there created =>
    exact lookedUp_enter was (fun same => by cases purpose <;> exact same) looks
  | insert m id reader purpose cache handle was inserted =>
    exact lookedUp_enter was (fun same => by cases purpose <;> exact same) looks
  | use m id handle key ids older reader clients was value released =>
    refine lookedUp_enter was (fun same => ?_) looks
    rcases reader.get key with error | found | value
    · exact same
    · exact (lookedUp_next key ids older).trans same
    · exact same
  | drop m id handle clients was released => exact lookedUp_enter was (fun dropped => nomatch dropped) looks

theorem uses_of_step {act : TableCache.Act} (other : TableCache.stepFiles tables act = none)
    (moved : TableCache.step charge tables act = some after) : TableCache.Uses charge tables after := by
  rw [TableCache.step, other, Option.none_or] at moved
  rcases Option.or_eq_some_iff.mp moved with got | ⟨-, used⟩
  · exact TableCache.stepGet_uses got
  · exact TableCache.stepUse_uses used

end Tables

/-- The files of every version in use are there, and nobody is about to remove them. The
tables that wait to be published are apart from all versions. -/
structure Kept (state : State) : Prop where
  sound : state.use.Sound
  holders : Interleaving.Holders (fun version => version) state.pinned state.use.readers
  pending : ∀ id ∈ state.use.set.pendingObsoleteIds.keys, id ∈ state.use.files
  files : ∀ id ∈ state.use.files, ∃ table : UInt64, table.toNat = id ∧ id ∈ state.tables.disk.sst.keys ∧
    table ∉ state.obsolete
  apart : ∀ table ∈ state.unpublished, table.toNat ∈ state.tables.disk.sst.keys ∧ table ∉ state.obsolete ∧
    table.toNat ∉ state.use.files
  known : ∀ table ∈ state.obsolete, table.toNat ∈ state.tables.written.sst.keys
  lookups : ∀ n version, state.pinned n = some version → lookedUp (state.tables.calls n) = some (newestFirst version)

section Kept

variable {sizing : BloomFilter.Sizing} {charge : SSTableReader → UInt64} {state after : State}

/-- Through the cache nothing changes that versions and files need. -/
theorem Kept.uses (kept : Kept state) {tables : TableCache.State} (uses : TableCache.Uses charge state.tables tables) :
    Kept { state with tables } := by
  obtain ⟨disk, written⟩ := uses.files
  refine ⟨kept.sound, kept.holders, kept.pending, ?_, ?_, ?_, ?_⟩
  · intro id file
    rw [disk]
    exact kept.files id file
  · intro table waits
    rw [disk]
    exact kept.apart table waits
  · intro table handed
    rw [written]
    exact kept.known table handed
  · exact fun n version pins => lookedUp_kept uses (kept.lookups n version pins)

theorem Kept.write (kept : Kept state) (coherent : TableCache.Coherent sizing state.tables) {id : UInt64}
    (fresh : state.tables.written.sst.find? id.toNat = none) (file : Bytes) :
    Kept { state with
      tables := { state.tables with
        disk := state.tables.disk.putTable id.toNat file
        written := state.tables.written.putTable id.toNat file }
      unpublished := id :: state.unpublished } := by
  have grows : ∀ {disk : Disk Bytes} {other : Nat}, other ∈ disk.sst.keys → other ∈ (disk.putTable id.toNat file).sst.keys := by
    intro disk other there
    rw [Disk.putTable_sst, SortedMap.mem_keys_insert]
    exact .inr there
  have unwritten : id.toNat ∉ state.tables.disk.sst.keys := by
    intro there
    obtain ⟨old, found⟩ := SortedMap.mem_keys_iff.mp there
    rw [coherent.kept found] at fresh
    cases fresh
  refine ⟨kept.sound, kept.holders, kept.pending, ?_, ?_, fun table handed => grows (kept.known table handed), kept.lookups⟩
  · intro other used
    obtain ⟨table, same, there, free⟩ := kept.files other used
    exact ⟨table, same, grows there, free⟩
  · intro table waits
    rcases List.mem_cons.mp waits with rfl | earlier
    · refine ⟨by rw [Disk.putTable_sst, SortedMap.mem_keys_insert]; exact .inl rfl, ?_, ?_⟩
      · intro handed
        exact SortedMap.find?_eq_none_iff.mp fresh (kept.known table handed)
      · intro used
        obtain ⟨_, _, there, _⟩ := kept.files _ used
        exact unwritten there
    · obtain ⟨there, free, unused⟩ := kept.apart table earlier
      exact ⟨grows there, free, unused⟩

/-- Tables that are added were written and not published before. -/
theorem Kept.added (kept : Kept state) {edit : VersionEdit}
    (waiting : ∀ row ∈ edit.added, row.id ∈ state.unpublished.map UInt64.toNat) {id : SSTableId}
    (member : id ∈ edit.added.map SSTableMeta.id ++ state.use.files) :
    ∃ table : UInt64, table.toNat = id ∧ id ∈ state.tables.disk.sst.keys ∧ table ∉ state.obsolete := by
  rcases List.mem_append.mp member with new | old
  · obtain ⟨row, added, rfl⟩ := List.mem_map.mp new
    obtain ⟨table, waits, same⟩ := List.mem_map.mp (waiting row added)
    obtain ⟨there, free, -⟩ := kept.apart table waits
    exact ⟨table, same, same ▸ there, free⟩
  · exact kept.files id old

/-- What an edit removes or has removed before is among the files. -/
theorem Kept.returned_files (kept : Kept state) {edit : VersionEdit} {returned : List SSTableId} {after : VersionSet}
    (applied : VersionSet.Applied state.use.pins state.use.set edit returned after) {id : SSTableId}
    (source : id ∈ edit.removed ∨ id ∈ state.use.set.pendingObsoleteIds.keys) : id ∈ state.use.files := by
  rcases source with removed | waiting
  · have live := applied.live id removed
    obtain ⟨row, found⟩ := Option.isSome_iff_exists.mp live
    exact kept.sound.files _ kept.sound.current id (SortedMap.mem_keys_iff.mpr ⟨row, found⟩)
  · exact kept.pending id waiting

theorem Kept.apply (kept : Kept state) (coherent : TableCache.Coherent sizing state.tables) {edit : VersionEdit}
    (waiting : ∀ row ∈ edit.added, row.id ∈ state.unpublished.map UInt64.toNat) :
    Kept { state with
      use := (state.use.apply edit).2
      unpublished := state.unpublished.filter fun id => id.toNat ∉ edit.added.map SSTableMeta.id
      obsolete := handedOut (state.use.apply edit).1 ++ state.obsolete } := by
  have sound := kept.sound.apply edit
  have unlisted : ∀ table ∈ state.unpublished.filter fun id => id.toNat ∉ edit.added.map SSTableMeta.id,
      table ∈ state.unpublished ∧ table.toNat ∉ edit.added.map SSTableMeta.id ++ state.use.files := by
    intro table member
    obtain ⟨waits, other⟩ := List.mem_filter.mp member
    refine ⟨waits, fun listed => ?_⟩
    rcases List.mem_append.mp listed with new | old
    · exact of_decide_eq_true other new
    · exact (kept.apart table waits).2.2 old
  rcases state.use.apply_cases edit with ⟨error, -, result⟩ | ⟨returned, after, applied, result⟩
  · rw [result] at sound ⊢
    refine ⟨sound, kept.holders, fun id waits => List.mem_append_right _ (kept.pending id waits), ?_, ?_, kept.known,
      kept.lookups⟩
    · exact fun id member => kept.added waiting member
    · intro table member
      obtain ⟨waits, unused⟩ := unlisted table member
      exact ⟨(kept.apart table waits).1, (kept.apart table waits).2.1, unused⟩
  · rw [result] at sound ⊢
    have used : ∀ id ∈ returned, id ∈ state.use.files := fun id handed =>
      kept.returned_files applied ((applied.unused id).mp handed).1
    have handed : ∀ table ∈ returned.map UInt64.ofNat, table.toNat ∈ returned := by
      intro table member
      obtain ⟨id, out, rfl⟩ := List.mem_map.mp member
      obtain ⟨table, rfl, -⟩ := kept.files id (used id out)
      rwa [UInt64.ofNat_toNat]
    have free : ∀ {table : UInt64}, table.toNat ∉ returned → table ∉ state.obsolete →
        table ∉ returned.map UInt64.ofNat ++ state.obsolete := by
      intro table unreturned earlier member
      rcases List.mem_append.mp member with new | old
      · exact unreturned (handed table new)
      · exact earlier old
    refine ⟨sound, kept.holders, ?_, ?_, ?_, ?_, kept.lookups⟩
    · intro id waits
      obtain ⟨source, unreturned⟩ := (applied.pending id).mp waits
      exact List.mem_filter.mpr ⟨List.mem_append_right _ (kept.returned_files applied source), decide_eq_true unreturned⟩
    · intro id member
      obtain ⟨inside, unreturned⟩ := List.mem_filter.mp member
      obtain ⟨table, rfl, there, earlier⟩ := kept.added waiting inside
      exact ⟨table, rfl, there, free (of_decide_eq_true unreturned) earlier⟩
    · intro table member
      obtain ⟨waits, unused⟩ := unlisted table member
      refine ⟨(kept.apart table waits).1, free (fun out => ?_) (kept.apart table waits).2.1, fun inside => ?_⟩
      · exact (kept.apart table waits).2.2 (used _ out)
      · exact unused (List.mem_filter.mp inside).1
    · intro table member
      rcases List.mem_append.mp member with new | old
      · obtain ⟨_, _, there, _⟩ := kept.files _ (used _ (handed table new))
        obtain ⟨file, found⟩ := SortedMap.mem_keys_iff.mp there
        exact SortedMap.mem_keys_iff.mpr ⟨file, coherent.kept found⟩
      · exact kept.known table old

theorem Kept.get (kept : Kept state) {n : Nat} (idle : state.tables.calls n = .idle) {tables : TableCache.State}
    (uses : TableCache.Uses charge state.tables tables)
    (looks : lookedUp (tables.calls n) = some (newestFirst state.use.set.currentVersion)) :
    Kept { state with
      tables
      use := state.use.getCurrent
      pinned := Function.update state.pinned n (some state.use.set.currentVersion) } := by
  have unpinned : state.pinned n = none := by
    cases pins : state.pinned n with
    | none => rfl
    | some version =>
      have looked := kept.lookups n version pins
      rw [idle] at looked
      cases looked
  have later := kept.uses uses
  refine ⟨kept.sound.getCurrent, kept.holders.take unpinned rfl, kept.pending, later.files, later.apart, later.known, ?_⟩
  intro m version pins
  change Function.update state.pinned n _ m = _ at pins
  by_cases here : m = n
  · subst here
    rw [Function.update_self] at pins
    cases pins
    exact looks
  · rw [Function.update_of_ne here] at pins
    exact later.lookups m version pins

theorem Kept.finish (kept : Kept state) {n : Nat} {version : Version} (pins : state.pinned n = some version) :
    Kept { state with use := state.use.release version, pinned := Function.update state.pinned n none } := by
  refine ⟨kept.sound.release version, kept.holders.give pins rfl, kept.pending, kept.files, kept.apart, kept.known, ?_⟩
  intro m other holds
  change Function.update state.pinned n none m = _ at holds
  by_cases here : m = n
  · rw [here, Function.update_self] at holds
    cases holds
  · rw [Function.update_of_ne here] at holds
    exact kept.lookups m other holds

theorem Kept.remove (kept : Kept state) {id : UInt64} (handed : id ∈ state.obsolete) :
    Kept { state with
      tables := { state.tables with disk := state.tables.disk.dropTable id.toNat }
      obsolete := state.obsolete.erase id } := by
  have stays : ∀ {table : UInt64}, table ∉ state.obsolete → table.toNat ∈ state.tables.disk.sst.keys →
      table.toNat ∈ (state.tables.disk.dropTable id.toNat).sst.keys := by
    intro table free there
    have different : table.toNat ≠ id.toNat := fun same => free (UInt64.toNat_inj.mp same ▸ handed)
    exact SortedMap.mem_keys_erase.mpr ⟨different, there⟩
  refine ⟨kept.sound, kept.holders, kept.pending, ?_, ?_, ?_, kept.lookups⟩
  · intro other used
    obtain ⟨table, rfl, there, free⟩ := kept.files other used
    exact ⟨table, rfl, stays free there, fun left => free (List.mem_of_mem_erase left)⟩
  · intro table waits
    obtain ⟨there, free, unused⟩ := kept.apart table waits
    exact ⟨stays free there, fun left => free (List.mem_of_mem_erase left), unused⟩
  · exact fun table left => kept.known table (List.mem_of_mem_erase left)

theorem step_keeps {act : Act} (coherent : TableCache.Coherent sizing state.tables) (kept : Kept state)
    (bounded : TableCache.Bounded state.tables) (moved : step charge state act = some after) :
    TableCache.Coherent sizing after.tables ∧ Kept after := by
  cases act with
  | write id file =>
    obtain ⟨tables, published, same⟩ := Option.bind_eq_some_iff.mp moved
    cases same
    refine ⟨(TableCache.step_moves published).coherent coherent bounded, ?_⟩
    cases found : state.tables.written.sst.find? id.toNat with
    | some old =>
      simp [TableCache.step, TableCache.stepFiles, TableCache.stepGet, TableCache.stepUse, found] at published
    | none =>
      simp only [TableCache.step, TableCache.stepFiles, found, Option.some_or, Option.some.injEq] at published
      subst published
      exact kept.write coherent found file
  | apply edit =>
    simp only [step] at moved
    split at moved
    · rename_i waiting
      cases moved
      exact ⟨coherent, kept.apply coherent fun row added => of_decide_eq_true (List.all_eq_true.mp waiting row added)⟩
    · cases moved
  | get n key =>
    obtain ⟨tables, looked, same⟩ := Option.bind_eq_some_iff.mp moved
    cases same
    have uses := uses_of_step rfl looked
    refine ⟨uses.coherent coherent bounded, ?_⟩
    cases was : state.tables.calls n with
    | idle =>
      refine kept.get was uses ?_
      simp only [TableCache.step, TableCache.stepFiles, TableCache.stepGet, TableCache.stepUse, was] at looked
      split at looked
      · cases looked
        rw [TableCache.State.enter_calls_self]
        exact lookedUp_next ..
      · cases looked
    | _ => simp [TableCache.step, TableCache.stepFiles, TableCache.stepGet, TableCache.stepUse, was] at looked
  | finish n =>
    simp only [step] at moved
    split at moved
    · rename_i version _ pins
      cases moved
      exact ⟨coherent, kept.finish pins⟩
    · cases moved
  | proceed act =>
    simp only [step] at moved
    split at moved
    · rename_i ofCall
      obtain ⟨tables, went, same⟩ := Option.map_eq_some_iff.mp moved
      cases same
      have uses : TableCache.Uses charge state.tables tables := by
        cases act with
        | publish | remove | evict | lookup => cases ofCall
        | _ => exact uses_of_step rfl went
      exact ⟨uses.coherent coherent bounded, kept.uses uses⟩
    · cases moved
  | evict id =>
    simp only [step] at moved
    split at moved
    · obtain ⟨tables, evicted, same⟩ := Option.map_eq_some_iff.mp moved
      cases same
      have uses := uses_of_step rfl evicted
      exact ⟨uses.coherent coherent bounded, kept.uses uses⟩
    · cases moved
  | remove id =>
    simp only [step] at moved
    split at moved
    · rename_i handed
      obtain ⟨tables, removed, same⟩ := Option.map_eq_some_iff.mp moved
      cases same
      refine ⟨(TableCache.step_moves removed).coherent coherent bounded, ?_⟩
      cases removed
      exact kept.remove handed
    · cases moved

theorem new_keeps {capacity numShards : UInt64} (created : State.new capacity numShards = some state) :
    TableCache.Coherent sizing state.tables ∧ Kept state := by
  obtain ⟨tables, creating, same⟩ := Option.bind_eq_some_iff.mp created
  cases same
  refine ⟨TableCache.new_coherent creating, VersionUse.sound_start _, ⟨[], List.nodup_nil, List.Perm.refl _, ?_⟩, ?_, ?_,
    ?_, ?_, ?_⟩
  · simp
  · exact fun id waits => nomatch waits
  · exact fun id used => nomatch used
  · exact fun table waits => nomatch waits
  · exact fun table handed => nomatch handed
  · exact fun n version pins => nomatch pins

theorem Kept.present (kept : Kept state) {version : Version}
    (inUse : version = state.use.set.currentVersion ∨ ∃ n, state.pinned n = some version) {id : SSTableId}
    (listed : id ∈ version.files.keys) :
    ∃ table : UInt64, table.toNat = id ∧ id ∈ state.tables.disk.sst.keys ∧ table ∉ state.obsolete := by
  have live : version ∈ state.use.set.liveVersions := by
    rcases inUse with rfl | ⟨n, pins⟩
    · exact kept.sound.current
    · exact kept.sound.readers version (kept.holders.mem (n := n) pins)
  exact kept.files id (kept.sound.files version live id listed)

theorem Kept.newestFirst_toNat (kept : Kept state) {n : Nat} {version : Version} (pins : state.pinned n = some version) :
    (newestFirst version).map UInt64.toNat = version.files.keys.reverse := by
  rw [newestFirst, List.map_map]
  refine (List.map_congr_left ?_).trans (List.map_id _)
  intro id member
  obtain ⟨table, rfl, -⟩ := kept.present (.inr ⟨n, pins⟩) (List.mem_reverse.mp member)
  exact congrArg UInt64.toNat (UInt64.ofNat_toNat (x := table))

theorem step_tables {act : Act} (moved : step charge state act = some after) :
    after.tables = state.tables ∨ ∃ through, TableCache.step charge state.tables through = some after.tables := by
  cases act with
  | write id file =>
    obtain ⟨tables, published, same⟩ := Option.bind_eq_some_iff.mp moved
    cases same
    exact .inr ⟨_, published⟩
  | get n key =>
    obtain ⟨tables, looked, same⟩ := Option.bind_eq_some_iff.mp moved
    cases same
    exact .inr ⟨_, looked⟩
  | apply edit =>
    simp only [step] at moved
    split at moved
    · cases moved
      exact .inl rfl
    · cases moved
  | finish n =>
    simp only [step] at moved
    split at moved
    · cases moved
      exact .inl rfl
    · cases moved
  | proceed through | evict id | remove id =>
    simp only [step] at moved
    split at moved
    · obtain ⟨tables, went, same⟩ := Option.map_eq_some_iff.mp moved
      cases same
      exact .inr ⟨_, went⟩
    · cases moved

/-- The cache goes through a run of its own, which is no longer. -/
theorem run_tables {acts : List Act} (ran : Interleaving.run (step charge) state acts = some after) :
    ∃ through, through.length ≤ acts.length ∧
      Interleaving.run (TableCache.step charge) state.tables through = some after.tables := by
  induction acts generalizing state with
  | nil =>
    cases ran
    exact ⟨[], le_rfl, rfl⟩
  | cons act later ih =>
    obtain ⟨next, moved, rest⟩ := Option.bind_eq_some_iff.mp ran
    obtain ⟨others, fewer, went⟩ := ih rest
    rcases step_tables moved with same | ⟨first, stepped⟩
    · rw [same] at went
      exact ⟨others, fewer.trans (Nat.le_succ _), went⟩
    · refine ⟨first :: others, Nat.succ_le_succ fewer, ?_⟩
      rw [Interleaving.run, stepped]
      exact went

theorem bounded_of_short {capacity numShards : UInt64} {acts : List Act} {start : State}
    (created : State.new capacity numShards = some start) (short : acts.length < 2 ^ 31)
    (ran : Interleaving.run (step charge) start acts = some state) : TableCache.Bounded state.tables := by
  obtain ⟨tables, creating, same⟩ := Option.bind_eq_some_iff.mp created
  cases same
  obtain ⟨through, fewer, went⟩ := run_tables ran
  exact TableCache.bounded_of_short creating (fewer.trans_lt short) went

end Kept

/-- While others write, publish, evict and unlink tables, the files of the current version
and of every version that a call has taken are there, and a call answers as the files of its
version do: it never finds one of them removed. -/
theorem gets_answer_from_their_version (sizing : BloomFilter.Sizing) (charge : SSTableReader → UInt64)
    {capacity numShards : UInt64} {acts : List Act} {start state : State}
    (created : State.new capacity numShards = some start)
    (reached : Interleaving.run (step charge) start acts = some state)
    (bounded : ∀ earlier, earlier <+: acts → ∀ middle,
      Interleaving.run (step charge) start earlier = some middle → TableCache.Bounded middle.tables) :
    (∀ version, version = state.use.set.currentVersion ∨ (∃ n, state.pinned n = some version) →
        ∀ id ∈ version.files.keys, id ∈ state.tables.disk.sst.keys) ∧
      ∀ n version, state.pinned n = some version → ∀ key all result, state.tables.calls n = .answered key all result →
        result = Engine.lookupInternal (byteFormat sizing) state.tables.disk key version.files.keys.reverse := by
  have first := bounded [] List.nil_prefix start rfl
  obtain ⟨⟨coherent, kept⟩, -⟩ := Interleaving.run_keeps_through
    (fun state => (TableCache.Coherent sizing state.tables ∧ Kept state) ∧ TableCache.Bounded state.tables)
    (fun state => TableCache.Bounded state.tables)
    (fun holds allowed moved => ⟨step_keeps holds.1.1 holds.1.2 holds.2 moved, allowed⟩)
    ⟨new_keeps created, first⟩ reached bounded
  constructor
  · intro version inUse id listed
    obtain ⟨_, _, there, _⟩ := kept.present inUse listed
    exact there
  · intro n version pins key all result answered
    have looked := kept.lookups n version pins
    rw [answered] at looked
    cases looked
    have sound := coherent.phases n
    rw [answered] at sound
    have there : ∀ id ∈ version.files.keys.reverse, ∃ file, state.tables.disk.sst.find? id = some file := by
      intro id member
      obtain ⟨_, _, there, _⟩ := kept.present (.inr ⟨n, pins⟩) (List.mem_reverse.mp member)
      exact SortedMap.mem_keys_iff.mp there
    rcases sound.2 with same | ⟨-, id, member, missing⟩
    · rw [same, kept.newestFirst_toNat pins]
      refine Engine.lookupInternal_congr (fun id member => ?_) key
      obtain ⟨file, found⟩ := there id member
      rw [found, coherent.kept found]
    · obtain ⟨file, found⟩ := there id.toNat (kept.newestFirst_toNat pins ▸ List.mem_map_of_mem member)
      rw [missing] at found
      cases found

/-- Its only table is taken out of the current version while a call looks it up. -/
def overtaken (file : Bytes) : List Act :=
  [.write 1 file, .apply ⟨[], [⟨1, 0, 0, 0⟩]⟩, .get 0 [7], .proceed (.ask 0), .apply ⟨[1], []⟩, .proceed (.open 0),
    .proceed (.insert 0), .proceed (.use 0)]

theorem gets_answer_from_their_version_overtaken :
    ∃ start state version, State.new 4 2 = some start ∧
      Interleaving.run (step fun _ => 1) start (overtaken TableCache.sevens) = some state ∧
      state.pinned 0 = some version ∧ version ≠ state.use.set.currentVersion ∧
      ∃ result, state.tables.calls 0 = .answered [7] [1] result ∧ result = .ok (some ⟨[70], false, 1⟩) ∧
        result = Engine.lookupInternal (byteFormat nominalSizing) state.tables.disk [7] version.files.keys.reverse := by
  let ended := (State.new 4 2).bind fun start => Interleaving.run (step fun _ => 1) start (overtaken TableCache.sevens)
  have answers : ended.map (fun state => (state.tables.calls 0).answer?) =
      some (some ([7], [1], .ok (some ⟨[70], false, 1⟩))) := by
    decide +kernel
  have versions : ended.map (fun state => ((state.pinned 0).map Version.serial, state.use.set.currentVersion.serial)) =
      some (some 1, 2) := by
    decide +kernel
  obtain ⟨state, went, answer⟩ := Option.map_eq_some_iff.mp answers
  rw [went, Option.map_some, Option.some.injEq, Prod.mk.injEq] at versions
  obtain ⟨version, pins, serial⟩ := Option.map_eq_some_iff.mp versions.1
  obtain ⟨start, created, reached⟩ := Option.bind_eq_some_iff.mp went
  have answered := TableCache.Phase.answered_of answer
  refine ⟨start, state, version, created, reached, pins, ?_, _, answered, rfl, ?_⟩
  · rintro rfl
    exact absurd (serial.symm.trans versions.2) (by decide)
  · have short : (overtaken TableCache.sevens).length < 2 ^ 31 := by simp [overtaken]
    exact (gets_answer_from_their_version nominalSizing (fun _ => 1) created reached fun earlier initial middle ran =>
      bounded_of_short created (initial.length_le.trans_lt short) ran).2 0 version pins [7] [1] _ answered

end SnapshotReads

end Enigma
