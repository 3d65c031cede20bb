import Enigma.Engine.DiskView

/-! What survives faults while nothing is compacted. Calls that write may fail
or the process may die at any call; the rules say, for any predicate on what may
be read of a key, that writing, flushing and recovering keep it. -/

namespace Enigma

/-- Tables appear in the directory in one step. -/
def TableShape.Atomic (shape : TableShape) : Prop := ∀ estimatedKeys entries, shape.tornAnswers estimatedKeys entries = []

theorem TableShape.plain_atomic : TableShape.plain.Atomic := fun _ _ => rfl

def CompactionPolicy.NeverPicks (policy : CompactionPolicy) : Prop := ∀ live, policy.pick live = none

namespace Engine

open Prog

/-- A configuration under which nothing is compacted. -/
def restingConfig : Config := ⟨100, ⟨fun _ => none, "resting"⟩⟩

theorem restingConfig_idle : restingConfig.policy.NeverPicks := fun _ => rfl

/-- A fault policy under which, among the calls, only opens, appends and syncs
return errors. Any call may be the last. -/
def WriteFaults (may : Call → Fate → Prop) : Prop :=
  ∀ kind, may kind .failed → kind = .open ∨ kind = .append ∨ kind = .sync

theorem WriteFaults.removes {may : Call → Fate → Prop} (faults : WriteFaults may) : ¬ may .fsRemove .failed := by
  intro failed
  rcases faults _ failed with same | same | same <;> cases same

/-- Some call may fail. Unlinks are left out here: their failures are ignored. -/
def Fallible (may : Call → Fate → Prop) : Prop := ∃ kind, kind ≠ .unlink ∧ may kind .failed

/-- The process may die before some call, unlinks again left out. -/
def Crashable (may : Call → Fate → Prop) : Prop := ∃ kind, kind ≠ .unlink ∧ may kind .crashed

def AllWhole (disk : Disk EntryFile) : Prop :=
  ∀ id file, disk.sst.find? id = some file → ∃ estimatedKeys entries, file = .whole estimatedKeys entries ∧ estimatedKeys ≠ 0

/-- A predicate on what may be read of a key. -/
abbrev Reading := Key → Option InternalValue → Prop

/-- A directory that no engine has open. Its log holds certain records. -/
structure Closed (shape : TableShape) (logs : WalRecord → Prop) (accepts : Reading) (disk : Disk EntryFile) : Prop where
  sole : ∃ seq, SoleLog disk seq
  loggable : ∀ id records, disk.wal.find? id = some records → ∀ record ∈ records, logs record
  whole : shape.Atomic → AllWhole disk
  onDisk : ∀ key, accepts key (diskView disk key)

/-- An engine that may flush: its live tables are in order, every table file has
an older id than the next, and tables that it does not list hold only keys of
its memtable. -/
structure Flushable (shape : TableShape) (logs : WalRecord → Prop) (accepts : Reading) (world : World EntryFile) : Prop
    extends Stocked world, Closed shape logs accepts world.disk where
  numbered : ∀ id ∈ world.disk.sst.keys, id < world.engine.nextSstSeq
  positive : 0 < world.engine.nextWalSeq
  agree : ∀ key, world.engine.activeMemtable.get key = none →
    (diskLayers world.disk).lookup key = (liveLayers world).lookup key
  inMemory : ∀ key, accepts key (view world key)
  idle : world.engine.policy.NeverPicks

/-- An engine between two calls: the segment it writes to is there and is the
only one with records. -/
structure Durable (shape : TableShape) (logs : WalRecord → Prop) (accepts : Reading) (world : World EntryFile) : Prop
    extends Flushable shape logs accepts world where
  log : SoleLog world.disk world.engine.walWriter
  logged : (world.disk.wal.find? world.engine.walWriter).isSome
  ahead : world.engine.walWriter ≤ world.engine.nextWalSeq

section

variable {F : Type} (format : TableFormat F)

/-- A flush up to the publication of its table. -/
def publishMemtable : Prog Call Error (World F) Nat := do
  let world ← getState
  let newSequence ← mintSstId
  writeTable format newSequence world.engine.activeMemtable.count world.engine.activeMemtable.entries.bindings
  let info ← readTable format World.disk newSequence
  let newWalSeq ← mintWalId
  onDisk .open (Disk.openWal newWalSeq)
  installFlushedSst (tableMeta newSequence info)
  return newWalSeq

/-- The rest of a flush, up to the compaction check. -/
def retireWal (newWalSeq : Nat) : Prog Call Error (World F) Unit := do
  onEngine fun engine => { engine with walWriter := newWalSeq, activeMemtable := .new engine.memtableSize }
  onDisk .fsRemove (Disk.dropWal (newWalSeq - 1))

theorem flushMemtable_eq : flushMemtable format = publishMemtable format >>= retireWal := by
  simp only [flushMemtable, publishMemtable, bind_bind]
  rfl

end

section

variable {shape : TableShape} {logs : WalRecord → Prop} {accepts : Reading} {world : World EntryFile} {may : Call → Fate → Prop}

/-- A file that the writer of a table passes through. -/
def Stage (shape : TableShape) (estimatedKeys : Nat) (entries : List Entry) (file : EntryFile) : Prop :=
  file = (entryFormat shape).opened estimatedKeys entries ∨ file ∈ (entryFormat shape).appended estimatedKeys entries

theorem Stage.entries_eq {estimatedKeys : Nat} {entries : List Entry} {file : EntryFile}
    (stage : Stage shape estimatedKeys entries file) : file.entries = [] ∨ file.entries = entries := by
  rcases entryFormat_stage shape stage with ⟨answer, same⟩ | same
  · exact .inl (by rw [same]; rfl)
  · exact .inr (by rw [same]; rfl)

theorem Stage.whole {estimatedKeys : Nat} {entries : List Entry} {file : EntryFile}
    (stage : Stage shape estimatedKeys entries file) (atomic : shape.Atomic) : file = .whole estimatedKeys entries := by
  have contents : shape.contents estimatedKeys entries = [.whole estimatedKeys entries] := by
    simp [TableShape.contents, atomic estimatedKeys entries]
  simpa [Stage, entryFormat, contents] using stage

theorem stage_complete (estimatedKeys : Nat) (entries : List Entry) :
    Stage shape estimatedKeys entries (.whole estimatedKeys entries) := by
  rw [← entryFormat_complete shape]
  unfold Stage TableFormat.complete
  cases last : ((entryFormat shape).appended estimatedKeys entries).getLast? with
  | none => exact .inl rfl
  | some file => exact .inr (List.mem_of_getLast? last)

/-- Where a table writer can be stopped: before the file is there, or in some
stage of it. -/
def WriteStopped (shape : TableShape) (world : World EntryFile) (id : SSTableId) (estimatedKeys : Nat)
    (entries : List Entry) (after : World EntryFile) : Prop :=
  after = world ∨ ∃ file, Stage shape estimatedKeys entries file ∧
    after = { world with disk := world.disk.putTable id file }

theorem wp_writeTable {id : SSTableId} {estimatedKeys : Nat} {entries : List Entry} {post : Post Error (World EntryFile) Unit}
    (ok : post.ok () { world with disk := world.disk.putTable id (.whole estimatedKeys entries) })
    (err : ∀ error after, Fallible may → WriteStopped shape world id estimatedKeys entries after → post.err error after)
    (crash : ∀ after, Crashable may → WriteStopped shape world id estimatedKeys entries after → post.crash after) :
    wp may (writeTable (entryFormat shape) id estimatedKeys entries) post world := by
  have staged : ∀ {file}, Stage shape estimatedKeys entries file →
      WriteStopped shape world id estimatedKeys entries { world with disk := world.disk.putTable id file } :=
    fun stage => .inr ⟨_, stage, rfl⟩
  refine wp_call_bind (wp_bind ?_) (fun failed => err _ _ ⟨_, by decide, failed⟩ (.inl rfl)) 
    (fun died => crash _ ⟨_, by decide, died⟩ (.inl rfl))
  -- the files still to come are the rest of the writer's stages
  refine wp_forEach (fun files after => ∃ file, Stage shape estimatedKeys entries file ∧
    after = { world with disk := world.disk.putTable id file } ∧ (∀ next ∈ files, Stage shape estimatedKeys entries next) ∧
    files.getLast?.getD file = .whole estimatedKeys entries) ?_ ?_ ?_
  · refine ⟨_, .inl rfl, rfl, fun next member => .inr member, ?_⟩
    rw [← entryFormat_complete shape]
    rfl
  · intro after invariant
    obtain ⟨file, stage, same, _, last⟩ := invariant
    simp only [List.getLast?_nil, Option.getD_none] at last
    subst last same
    refine wp_call_bind ?_ (fun failed => err _ _ ⟨_, by decide, failed⟩ (staged stage))
      (fun died => crash _ ⟨_, by decide, died⟩ (staged stage))
    exact wp_call ok (fun failed => err _ _ ⟨_, by decide, failed⟩ (staged stage))
      (fun died => crash _ ⟨_, by decide, died⟩ (staged stage))
  · intro next files after invariant
    obtain ⟨file, stage, same, coming, last⟩ := invariant
    subst same
    refine wp_call ?_ (fun failed => err _ _ ⟨_, by decide, failed⟩ (staged stage))
      (fun died => crash _ ⟨_, by decide, died⟩ (staged stage))
    refine ⟨next, coming next (by simp), by simp [Disk.putTable], fun other member => coming other (by simp [member]), ?_⟩
    cases files with
    | nil => simpa using last
    | cons second rest =>
      rw [List.getLast?_cons_cons] at last
      rw [List.getLast?_cons] at last ⊢
      exact last

/-- Reading a table leaves everything as it is. -/
theorem wp_readTable {σ : Type} {disk : σ → Disk EntryFile} {id : SSTableId} {state : σ} {post : Post Error σ TableInfo}
    (ok : ∀ file info, (disk state).sst.find? id = some file → (entryFormat shape).create file = .ok info →
      post.ok info state)
    (err : ∀ error, Fallible may ∨ (¬ ∃ file info, (disk state).sst.find? id = some file ∧
      (entryFormat shape).create file = .ok info) → post.err error state)
    (crash : Crashable may → post.crash state) : wp may (readTable (entryFormat shape) disk id) post state := by
  refine wp_call_bind (wp_getState_bind ?_) (fun failed => err _ (.inl ⟨_, by decide, failed⟩)) (fun died => crash ⟨_, by decide, died⟩)
  cases present : (disk state).sst.find? id with
  | none => exact wp_fail (err _ (.inr (by simp [present])))
  | some file =>
    refine wp_call_bind ?_ (fun failed => err _ (.inl ⟨_, by decide, failed⟩)) (fun died => crash ⟨_, by decide, died⟩)
    refine wp_call_bind ?_ (fun failed => err _ (.inl ⟨_, by decide, failed⟩)) (fun died => crash ⟨_, by decide, died⟩)
    refine wp_call_bind ?_ (fun failed => err _ (.inl ⟨_, by decide, failed⟩)) (fun died => crash ⟨_, by decide, died⟩)
    cases accepted : (entryFormat shape).create file with
    | error error => exact wp_fail (err _ (.inr (by simp [present, accepted])))
    | ok info => exact wp_pure (ok file info present accepted)

theorem installFlushedSst_silent (world : World EntryFile) (table : SSTableMeta) (quiet : world.engine.versionSet.Quiet) :
    ∃ versionSet : VersionSet, versionSet.Quiet ∧
      versionSet.currentVersion.files = world.engine.version.files.insert table.id table ∧
      ∀ script, (installFlushedSst table).run script world = (.ok (), script,
        { world with engine := { world.engine with versionSet := versionSet } }) := by
  obtain ⟨ids, after, applied, afterQuiet, files, _, members⟩ :=
    VersionSet.apply_quiet ⟨[], [table]⟩ quiet (by simp) (by simp)
  have none : ids = [] := List.eq_nil_iff_forall_not_mem.mpr fun id member => by simpa using (members id).mp member
  subst none
  refine ⟨after, afterQuiet, files, fun script => ?_⟩
  rw [installFlushedSst, applyEdit, bind_run_ok (getState_run _ _)]
  simp only [applied]
  rw [bind_run_ok (onEngine_run _ _ _)]
  rfl

/-- An engine whose flush was given up before its table was published. -/
structure Unflushed (shape : TableShape) (world after : World EntryFile) : Prop where
  engine : ∃ nextWalSeq, (nextWalSeq = world.engine.nextWalSeq ∨ nextWalSeq = world.engine.nextWalSeq + 1) ∧
    after.engine = { world.engine with nextSstSeq := world.engine.nextSstSeq + 1, nextWalSeq := nextWalSeq }
  disk : after.disk = world.disk ∨ ∃ file, Stage shape world.engine.activeMemtable.count
    world.engine.activeMemtable.entries.bindings file ∧
      after.disk = world.disk.putTable world.engine.nextSstSeq file

/-- No table has changed, but there may be one more: some stage of the table
being written. -/
def Staged (shape : TableShape) (world : World EntryFile) (estimatedKeys : Nat) (entries : List Entry)
    (disk : Disk EntryFile) : Prop :=
  disk.sst = world.disk.sst ∨ ∃ file, Stage shape estimatedKeys entries file ∧
    disk.sst = world.disk.sst.insert world.engine.nextSstSeq file

theorem Unflushed.staged {after : World EntryFile} (unflushed : Unflushed shape world after) :
    Staged shape world world.engine.activeMemtable.count world.engine.activeMemtable.entries.bindings after.disk := by
  rcases unflushed.disk with same | ⟨file, stage, same⟩
  · exact .inl (by rw [same])
  · exact .inr ⟨file, stage, by rw [same]; rfl⟩

/-- The directory with some stage of the flushed table in it. -/
theorem Flushable.closed_stage (flushable : Flushable shape logs accepts world)
    (filled : world.engine.activeMemtable.count ≠ 0) {file : EntryFile}
    (stage : Stage shape world.engine.activeMemtable.count world.engine.activeMemtable.entries.bindings file) :
    Closed shape logs accepts (world.disk.putTable world.engine.nextSstSeq file) where
  sole := flushable.sole
  loggable := flushable.loggable
  whole := by
    intro atomic id other found
    simp only [Disk.putTable_sst, SortedMap.find?_insert] at found
    split at found
    · cases found
      exact ⟨_, _, stage.whole atomic, filled⟩
    · exact flushable.whole atomic id other found
  onDisk := by
    intro key
    rcases diskView_putTable flushable.numbered file key with same | ⟨value, held, answer⟩
    · rw [same]
      exact flushable.onDisk key
    · rcases stage.entries_eq with none | all
      · simp [none] at held
      · rw [all] at held
        have stored : world.engine.activeMemtable.get key = some value := held
        have seen : view world key = some value := by simp [view, stored]
        rw [answer, ← seen]
        exact flushable.inMemory key

theorem Closed.openWal {disk : Disk EntryFile} (closed : Closed shape logs accepts disk) (fresh : Nat) :
    Closed shape logs accepts (disk.openWal fresh) where
  sole := by
    obtain ⟨seq, sole⟩ := closed.sole
    exact ⟨seq, sole.openWal fresh⟩
  loggable := by
    intro id records found record member
    rw [Disk.openWal_find?] at found
    split at found
    · cases held : disk.wal.find? fresh with
      | none => simp_all
      | some old =>
        simp only [held, Option.getD_some, Option.some.injEq] at found
        exact closed.loggable fresh old held record (found ▸ member)
    · exact closed.loggable id records found record member
  whole := by
    intro atomic id file found
    rw [Disk.openWal_sst] at found
    exact closed.whole atomic id file found
  onDisk := by
    intro key
    obtain ⟨seq, sole⟩ := closed.sole
    rw [diskView_openWal sole]
    exact closed.onDisk key

theorem Closed.dropWal {disk : Disk EntryFile} (closed : Closed shape logs accepts disk) (old : Nat)
    (tables : ∀ key, accepts key ((diskLayers disk).lookup key)) : Closed shape logs accepts (disk.dropWal old) where
  sole := by
    obtain ⟨seq, sole⟩ := closed.sole
    exact ⟨seq, sole.dropWal old⟩
  loggable := by
    intro id records found record member
    simp only [Disk.dropWal, SortedMap.find?_erase] at found
    split at found
    · cases found
    · exact closed.loggable id records found record member
  whole := closed.whole
  onDisk := by
    intro key
    obtain ⟨seq, sole⟩ := closed.sole
    rcases diskView_dropWal sole old key with same | gone
    · rw [same]
      exact closed.onDisk key
    · rw [gone]
      exact tables key

theorem Flushable.stopped_closed (flushable : Flushable shape logs accepts world)
    (filled : world.engine.activeMemtable.count ≠ 0) {after : World EntryFile} (unflushed : Unflushed shape world after) :
    Closed shape logs accepts after.disk := by
  rcases unflushed.disk with same | ⟨file, stage, same⟩
  · rw [same]
    exact flushable.toClosed
  · rw [same]
    exact flushable.closed_stage filled stage

variable (shape) in
/-- The state in which a flush has just published its table. -/
def publishedWorld (world : World EntryFile) (versionSet : VersionSet) : World EntryFile where
  disk := (world.disk.putTable world.engine.nextSstSeq (flushedFile (entryFormat shape) world)).openWal
    world.engine.nextWalSeq
  engine := { world.engine with
    nextSstSeq := world.engine.nextSstSeq + 1
    nextWalSeq := world.engine.nextWalSeq + 1
    versionSet := versionSet }

/-- A flush up to the publication of its table, whatever calls fail. -/
theorem wp_publishMemtable (quiet : world.engine.versionSet.Quiet) (filled : world.engine.activeMemtable.count ≠ 0)
    {post : Post Error (World EntryFile) Nat}
    (ok : ∀ (versionSet : VersionSet) info, versionSet.Quiet → versionSet.currentVersion.files =
      world.engine.version.files.insert world.engine.nextSstSeq (tableMeta world.engine.nextSstSeq info) →
        post.ok world.engine.nextWalSeq (publishedWorld shape world versionSet))
    (err : ∀ error after, Fallible may → Unflushed shape world after → post.err error after)
    (crash : ∀ after, Crashable may → Unflushed shape world after → post.crash after) :
    wp may (publishMemtable (entryFormat shape)) post world := by
  let next : World EntryFile :=
    { world with engine := { world.engine with nextSstSeq := world.engine.nextSstSeq + 1 } }
  let table : EntryFile := .whole world.engine.activeMemtable.count world.engine.activeMemtable.entries.bindings
  have stopped : ∀ after, WriteStopped shape next world.engine.nextSstSeq world.engine.activeMemtable.count
      world.engine.activeMemtable.entries.bindings after → Unflushed shape world after := by
    intro after stopped
    rcases stopped with same | ⟨file, stage, same⟩
    · subst same
      exact ⟨⟨_, .inl rfl, rfl⟩, .inl rfl⟩
    · subst same
      exact ⟨⟨_, .inl rfl, rfl⟩, .inr ⟨file, stage, rfl⟩⟩
  have complete : Unflushed shape world ⟨world.disk.putTable world.engine.nextSstSeq table, next.engine⟩ :=
    ⟨⟨_, .inl rfl, rfl⟩, .inr ⟨table, stage_complete _ _, rfl⟩⟩
  have rotated : Unflushed shape world ⟨world.disk.putTable world.engine.nextSstSeq table,
      { next.engine with nextWalSeq := world.engine.nextWalSeq + 1 }⟩ :=
    ⟨⟨_, .inr rfl, rfl⟩, .inr ⟨table, stage_complete _ _, rfl⟩⟩
  refine wp_getState_bind (wp_bind (wp_of_run (fun script => mintSstId_run script world) ?_))
  refine wp_bind (wp_writeTable ?_ (fun error after failed reached => err error after failed (stopped after reached))
    (fun after died reached => crash after died (stopped after reached)))
  refine wp_bind (wp_readTable ?_ ?_ (fun died => crash _ died complete))
  · intro file info present accepted
    refine wp_bind (wp_of_run (fun script => mintWalId_run script _) ?_)
    refine wp_call_bind ?_ (fun failed => err _ _ ⟨_, by decide, failed⟩ rotated)
      (fun died => crash _ ⟨_, by decide, died⟩ rotated)
    let opened : World EntryFile :=
      { disk := (world.disk.putTable world.engine.nextSstSeq table).openWal world.engine.nextWalSeq
        engine := { next.engine with nextWalSeq := world.engine.nextWalSeq + 1 } }
    obtain ⟨versionSet, quiet, files, installed⟩ :=
      installFlushedSst_silent opened (tableMeta world.engine.nextSstSeq info) quiet
    refine wp_bind (wp_of_run installed (wp_pure ?_))
    have final := ok versionSet info quiet files
    rw [publishedWorld, flushedFile_eq] at final
    exact final
  · intro error reason
    rcases reason with failed | missing
    · exact err _ _ failed complete
    · exact absurd ⟨table, _, by simp [table], entryFormat_create_whole shape _ filled⟩ missing

/-- A flush up to the compaction check. -/
theorem wp_flushMemtable (removes : ¬ may .fsRemove .failed) (flushable : Flushable shape logs accepts world)
    (filled : world.engine.activeMemtable.count ≠ 0) {post : Post Error (World EntryFile) Unit}
    (ok : ∀ (versionSet : VersionSet) info, versionSet.Quiet →
      versionSet.currentVersion.files = world.engine.version.files.insert world.engine.nextSstSeq
        (tableMeta world.engine.nextSstSeq info) → post.ok () (flushedWorld (entryFormat shape) world versionSet))
    (err : ∀ error after, Fallible may → Unflushed shape world after → post.err error after)
    (crash : ∀ after, Closed shape logs accepts after.disk → Staged shape world world.engine.activeMemtable.count
      world.engine.activeMemtable.entries.bindings after.disk → post.crash after) :
    wp may (flushMemtable (entryFormat shape)) post world := by
  rw [flushMemtable_eq]
  refine wp_bind (wp_publishMemtable flushable.quiet filled ?_ err
    (fun after _ unflushed => crash after (flushable.stopped_closed filled unflushed) unflushed.staged))
  intro versionSet info quiet files
  refine wp_bind (wp_of_run (fun script => onEngine_run _ script _) ?_)
  refine wp_call (ok versionSet info quiet files) (fun failed => absurd failed removes) fun _ => crash _ ?_ ?_
  · exact (flushable.closed_stage filled (flushedFile_eq ▸ stage_complete _ _)).openWal _
  · exact .inr ⟨_, flushedFile_eq ▸ stage_complete _ _, Disk.openWal_sst _ _⟩

theorem liveLayers_unflushed (stocked : Stocked world) {after : World EntryFile} (unflushed : Unflushed shape world after) :
    liveLayers after = liveLayers world := by
  obtain ⟨nextWalSeq, _, engine⟩ := unflushed.engine
  refine liveLayers_congr (by rw [engine]; rfl) ?_
  intro id member
  have different : id ≠ world.engine.nextSstSeq := by
    rw [engine] at member
    exact ne_of_lt (stocked.below id member)
  rcases unflushed.disk with same | ⟨file, _, same⟩ <;> simp [entriesAt, same, different]

variable {after : World EntryFile} in
/-- Giving a flush up leaves the engine able to try again. -/
theorem Unflushed.flushable (unflushed : Unflushed shape world after) (filled : world.engine.activeMemtable.count ≠ 0)
    (flushable : Flushable shape logs accepts world) : Flushable shape logs accepts after := by
  have layers := liveLayers_unflushed flushable.toStocked unflushed
  have closed := flushable.stopped_closed filled unflushed
  obtain ⟨nextWalSeq, counter, engine⟩ := unflushed.engine
  exact {
    toClosed := closed
    quiet := by
      rw [engine]
      exact flushable.quiet
    named := by
      rw [engine]
      exact flushable.named
    stored := by
      intro id row found
      rw [engine] at found
      obtain ⟨estimatedKeys, entries, present, positive⟩ := flushable.stored id row found
      have different : id ≠ world.engine.nextSstSeq :=
        ne_of_lt (flushable.below id (SortedMap.mem_keys_iff.mpr ⟨row, found⟩))
      refine ⟨estimatedKeys, entries, ?_, positive⟩
      rcases unflushed.disk with same | ⟨file, _, same⟩ <;> simpa [same, different] using present
    below := by
      rw [engine]
      exact fun id member => (flushable.below id member).trans (Nat.lt_succ_self _)
    numbered := by
      intro id member
      rw [engine]
      rcases unflushed.disk with same | ⟨file, _, same⟩
      · rw [same] at member
        exact (flushable.numbered id member).trans (Nat.lt_succ_self _)
      · rw [same] at member
        rcases SortedMap.mem_keys_insert.mp member with here | earlier
        · exact here ▸ Nat.lt_succ_self _
        · exact (flushable.numbered id earlier).trans (Nat.lt_succ_self _)
    positive := by
      rw [engine]
      rcases counter with same | same <;> simp [same, flushable.positive]
    agree := by
      intro key missing
      rw [engine] at missing
      rw [layers, ← flushable.agree key missing]
      rcases unflushed.disk with same | ⟨file, stage, same⟩
      · rw [same]
      · have absent : Assoc.find? file.entries key = none := by
          rcases stage.entries_eq with none | all
          · simp [none]
          · rw [all]
            exact missing
        rw [same, diskLayers_putTable, Layers.lookup_insert_above _ (diskLayers_below flushable.numbered), absent]
        rfl
    inMemory := by
      intro key
      rw [view, layers, engine]
      exact flushable.inMemory key
    idle := by
      rw [engine]
      exact flushable.idle }

theorem lookup_flushed (flushable : Flushable shape logs accepts world) (key : Key) :
    (diskLayers (world.disk.putTable world.engine.nextSstSeq (.whole world.engine.activeMemtable.count
      world.engine.activeMemtable.entries.bindings))).lookup key = view world key := by
  rw [diskLayers_putTable, Layers.lookup_insert_above _ (diskLayers_below flushable.numbered), view]
  change (world.engine.activeMemtable.get key).or _ = _
  cases stored : world.engine.activeMemtable.get key with
  | some value => rfl
  | none => simp [flushable.agree key stored]

/-- After a flush everything the engine shows is in its tables. -/
theorem Flushable.flushed (flushable : Flushable shape logs accepts world) (filled : world.engine.activeMemtable.count ≠ 0)
    {versionSet : VersionSet} {info : TableInfo} (quiet : versionSet.Quiet)
    (files : versionSet.currentVersion.files = world.engine.version.files.insert world.engine.nextSstSeq
      (tableMeta world.engine.nextSstSeq info)) :
    Flushable shape logs accepts (flushedWorld (entryFormat shape) world versionSet) := by
  have whole := flushable.closed_stage filled (stage_complete _ _)
  have tables : diskLayers (flushedWorld (entryFormat shape) world versionSet).disk = diskLayers
      (world.disk.putTable world.engine.nextSstSeq (.whole world.engine.activeMemtable.count
        world.engine.activeMemtable.entries.bindings)) := by
    simp [diskLayers, flushedWorld, flushedFile_eq]
  exact {
    toStocked := flushable.toStocked.flushed filled quiet files
    toClosed := by
      rw [flushedWorld, flushedFile_eq]
      refine (whole.openWal _).dropWal _ ?_
      intro key
      have same : diskLayers (Disk.openWal world.engine.nextWalSeq (world.disk.putTable world.engine.nextSstSeq
          (.whole world.engine.activeMemtable.count world.engine.activeMemtable.entries.bindings))) = diskLayers
          (world.disk.putTable world.engine.nextSstSeq (.whole world.engine.activeMemtable.count
            world.engine.activeMemtable.entries.bindings)) := by
        simp [diskLayers]
      rw [same, lookup_flushed flushable]
      exact flushable.inMemory key
    numbered := by
      intro id member
      have held : id ∈ (world.disk.sst.insert world.engine.nextSstSeq (flushedFile (entryFormat shape) world)).keys := by
        simpa [flushedWorld] using member
      rcases SortedMap.mem_keys_insert.mp held with here | earlier
      · exact here ▸ Nat.lt_succ_self _
      · exact (flushable.numbered id earlier).trans (Nat.lt_succ_self _)
    positive := Nat.succ_pos _
    agree := by
      intro key _
      rw [tables, lookup_flushed flushable, ← view_flushed flushable.toStocked files key]
      rfl
    inMemory := by
      intro key
      rw [view_flushed flushable.toStocked files]
      exact flushable.inMemory key
    idle := flushable.idle }

/-- The counter of segments is at most one past the segment being written. -/
def Tight (world : World EntryFile) : Prop := world.engine.nextWalSeq ≤ world.engine.walWriter + 1

theorem Durable.flushed (durable : Durable shape logs accepts world) (tight : Tight world)
    (filled : world.engine.activeMemtable.count ≠ 0) {versionSet : VersionSet} {info : TableInfo}
    (quiet : versionSet.Quiet)
    (files : versionSet.currentVersion.files = world.engine.version.files.insert world.engine.nextSstSeq
      (tableMeta world.engine.nextSstSeq info)) :
    Durable shape logs accepts (flushedWorld (entryFormat shape) world versionSet) where
  toFlushable := durable.toFlushable.flushed filled quiet files
  log := by
    intro id records found different
    simp only [flushedWorld, Disk.dropWal, SortedMap.find?_erase, Disk.openWal_find?] at found different
    split at found
    · cases found
    · rename_i kept
      have old : id ≠ world.engine.walWriter := by
        have ahead := durable.ahead
        unfold Tight at tight
        omega
      exact durable.log id records found old
  logged := by
    have positive := durable.positive
    have different : world.engine.nextWalSeq ≠ world.engine.nextWalSeq - 1 := by omega
    simp [flushedWorld, Disk.dropWal, different, Disk.openWal_find?]
  ahead := Nat.le_succ _

theorem Unflushed.durable {after : World EntryFile} (unflushed : Unflushed shape world after)
    (filled : world.engine.activeMemtable.count ≠ 0) (durable : Durable shape logs accepts world) :
    Durable shape logs accepts after := by
  have wal : after.disk.wal = world.disk.wal := by
    rcases unflushed.disk with same | ⟨file, _, same⟩ <;> rw [same]
    rfl
  have flushable := unflushed.flushable filled durable.toFlushable
  obtain ⟨nextWalSeq, counter, engine⟩ := unflushed.engine
  refine { flushable with log := ?_, logged := ?_, ahead := ?_ }
  · intro id records found different
    rw [wal] at found
    rw [engine] at different
    exact durable.log id records found different
  · rw [wal, engine]
    exact durable.logged
  · have ahead := durable.ahead
    rw [engine]
    simp only
    omega

/-- With a policy that never picks, the compaction check makes no call. -/
theorem doCompactWork_silent (shape : TableShape) (world : World EntryFile) (idle : world.engine.policy.NeverPicks) (script : Script Call) :
    (doCompactWork (entryFormat shape)).run script world = (.ok none, script, world) := by
  have none := idle world.engine.version.sstMetaToVector
  rw [doCompactWork, bind_run_ok (getState_run _ _)]
  simp only [none]
  rfl

/-- A whole flush of a memtable that holds something. -/
theorem wp_flush_filled (removes : ¬ may .fsRemove .failed) (flushable : Flushable shape logs accepts world)
    (filled : world.engine.activeMemtable.count ≠ 0) {post : Post Error (World EntryFile) Unit}
    (ok : ∀ (versionSet : VersionSet) info, versionSet.Quiet →
      versionSet.currentVersion.files = world.engine.version.files.insert world.engine.nextSstSeq
        (tableMeta world.engine.nextSstSeq info) → post.ok () (flushedWorld (entryFormat shape) world versionSet))
    (err : ∀ error after, Fallible may → Unflushed shape world after → post.err error after)
    (crash : ∀ after, Closed shape logs accepts after.disk → Staged shape world world.engine.activeMemtable.count
      world.engine.activeMemtable.entries.bindings after.disk → post.crash after) :
    wp may (flush (entryFormat shape)) post world := by
  refine wp_getState_bind ?_
  simp only [filled, ↓reduceIte]
  refine wp_bind (wp_flushMemtable removes flushable filled ?_ err crash)
  intro versionSet info quiet files
  have idle : (flushedWorld (entryFormat shape) world versionSet).engine.policy.NeverPicks := flushable.idle
  refine wp_bind (wp_of_run (fun script => attempt_run_ok (doCompactWork_silent shape _ idle script)) ?_)
  exact wp_pure (ok versionSet info quiet files)

/-- A flush between two calls. -/
theorem wp_flush (faults : WriteFaults may) (durable : Durable shape logs accepts world)
    (tight : world.engine.activeMemtable.count ≠ 0 → Tight world) {post : Post Error (World EntryFile) Unit}
    (ok : ∀ after, Durable shape logs accepts after → (Tight world → Tight after) → post.ok () after)
    (err : ∀ error after, Fallible may → Durable shape logs accepts after → post.err error after)
    (crash : ∀ after, Closed shape logs accepts after.disk → post.crash after) :
    wp may (flush (entryFormat shape)) post world := by
  by_cases filled : world.engine.activeMemtable.count = 0
  · refine wp_getState_bind ?_
    simp only [filled, ↓reduceIte]
    exact wp_pure (ok world durable id)
  · refine wp_flush_filled faults.removes durable.toFlushable filled ?_ ?_ (fun after holds _ => crash after holds)
    · intro versionSet info quiet files
      exact ok _ (durable.flushed (tight filled) filled quiet files) (fun _ => Nat.le_refl _)
    · exact fun error after failed unflushed => err error after failed (unflushed.durable filled durable)

theorem Closed.logged {disk : Disk EntryFile} (closed : Closed shape logs accepts disk) :
    ∀ record ∈ walRecords disk, logs record := by
  intro record member
  obtain ⟨segment, held, present⟩ := List.mem_flatMap.mp member
  exact closed.loggable segment.1 segment.2 (SortedMap.find?_eq_some_iff.mpr held) record present

/-- What is known of the records in the log may be said in other words. -/
theorem Closed.relog {others : WalRecord → Prop} {disk : Disk EntryFile} (closed : Closed shape logs accepts disk)
    (records : ∀ record ∈ walRecords disk, others record) : Closed shape others accepts disk :=
  { closed with
    loggable := fun id _ found record member =>
      records record (List.mem_flatMap.mpr ⟨(id, _), SortedMap.find?_eq_some_iff.mp found, member⟩) }

theorem Durable.relog {others : WalRecord → Prop} (durable : Durable shape logs accepts world)
    (records : ∀ record ∈ walRecords world.disk, others record) : Durable shape others accepts world :=
  { durable with toClosed := durable.toClosed.relog records }

theorem Closed.mono {weaker : Reading} {disk : Disk EntryFile} (closed : Closed shape logs accepts disk)
    (implies : ∀ key value, accepts key value → weaker key value) : Closed shape logs weaker disk :=
  { closed with onDisk := fun key => implies key _ (closed.onDisk key) }

theorem Durable.mono {weaker : Reading} (durable : Durable shape logs accepts world)
    (implies : ∀ key value, accepts key value → weaker key value) : Durable shape logs weaker world :=
  { durable with
    onDisk := fun key => implies key _ (durable.onDisk key)
    inMemory := fun key => implies key _ (durable.inMemory key) }

/-- The value that a write stores. -/
def writtenValue (world : World EntryFile) (value : Option Bytes) : InternalValue :=
  ⟨value.getD [], value.isNone, world.engine.lsn⟩

/-- The record that a write logs. -/
def writtenRecord (world : World EntryFile) (key : Key) (value : Option Bytes) (timestamp : Nat) : WalRecord :=
  ⟨if value.isSome then .putRow else .deleteRow, timestamp, world.engine.lsn, key, value.getD []⟩

theorem writtenRecord_entry (key : Key) (value : Option Bytes) (timestamp : Nat) :
    (writtenRecord world key value timestamp).entry = (key, writtenValue world value) := by
  cases value <;> rfl

/-- The state after the log append of a write. -/
def appended (world : World EntryFile) (key : Key) (value : Option Bytes) (timestamp : Nat) : World EntryFile where
  disk := world.disk.appendWal world.engine.walWriter (writtenRecord world key value timestamp)
  engine := { world.engine with lsn := world.engine.lsn + 1 }

theorem Durable.appended {next : Reading} (durable : Durable shape logs accepts world) {key : Key} {value : Option Bytes}
    {timestamp : Nat} (filled : logs (writtenRecord world key value timestamp))
    (keeps : ∀ probe held, accepts probe held → next probe held) (stores : next key (some (writtenValue world value))) :
    Durable shape logs next (appended world key value timestamp) := by
  have layers : liveLayers (Engine.appended world key value timestamp) = liveLayers world :=
    liveLayers_congr rfl (fun id _ => by simp [Engine.appended, entriesAt])
  have tables : diskLayers (Engine.appended world key value timestamp).disk = diskLayers world.disk := by
    simp [Engine.appended, diskLayers]
  exact {
    quiet := durable.quiet
    named := durable.named
    stored := by
      intro id row found
      obtain ⟨estimatedKeys, entries, present, positive⟩ := durable.stored id row found
      exact ⟨estimatedKeys, entries, by simpa [Engine.appended] using present, positive⟩
    below := durable.below
    sole := ⟨_, durable.log.appendWal _⟩
    loggable := by
      intro id records found record member
      simp only [Engine.appended, Disk.appendWal] at found
      split at found
      · rename_i old held
        simp only [SortedMap.find?_insert] at found
        split at found
        · cases found
          rcases List.mem_append.mp member with earlier | last
          · exact durable.loggable _ _ held record earlier
          · cases List.mem_singleton.mp last
            exact filled
        · exact durable.loggable id records found record member
      · exact durable.loggable id records found record member
    whole := by
      intro atomic id file found
      exact durable.whole atomic id file (by simpa [Engine.appended] using found)
    onDisk := by
      intro probe
      have seen := diskView_appendWal durable.log (writtenRecord world key value timestamp) durable.logged probe
      rw [writtenRecord_entry] at seen
      change next probe (diskView (world.disk.appendWal _ _) probe)
      rw [seen]
      split
      · rename_i same
        exact same ▸ stores
      · exact keeps probe _ (durable.onDisk probe)
    numbered := by
      intro id member
      exact durable.numbered id (by simpa [Engine.appended] using member)
    positive := durable.positive
    agree := by
      rw [tables, layers]
      exact durable.agree
    inMemory := by
      intro probe
      rw [view, layers]
      exact keeps probe _ (durable.inMemory probe)
    idle := durable.idle
    log := durable.log.appendWal _
    logged := by
      obtain ⟨records, found⟩ := Option.isSome_iff_exists.mp durable.logged
      simp [Engine.appended, Disk.appendWal, found]
    ahead := durable.ahead }

/-- The frame of the invariant does not depend on what may be read. -/
theorem Durable.of_views {any : Reading} (durable : Durable shape logs any world)
    (onDisk : ∀ key, accepts key (diskView world.disk key)) (inMemory : ∀ key, accepts key (view world key)) :
    Durable shape logs accepts world :=
  { durable with onDisk := onDisk, inMemory := inMemory }

/-- A write whose value has reached the log and the memtable. -/
theorem Durable.written {next : Reading} (durable : Durable shape logs accepts world) {key : Key} {value : Option Bytes}
    {timestamp : Nat} (filled : logs (writtenRecord world key value timestamp))
    (keeps : ∀ probe held, probe ≠ key → accepts probe held → next probe held)
    (stores : next key (some (writtenValue world value))) : Durable shape logs next (written world key value timestamp) := by
  have logged : Durable shape logs (fun _ _ => True) (Engine.appended world key value timestamp) :=
    durable.appended filled (fun _ _ _ => trivial) trivial
  have layers : liveLayers (Engine.appended world key value timestamp) = liveLayers world :=
    liveLayers_congr rfl (fun id _ => by simp [Engine.appended, entriesAt])
  have frame : Durable shape logs (fun _ _ => True) (Engine.written world key value timestamp) := {
    logged with
    agree := by
      intro probe missing
      refine logged.agree probe ?_
      simp only [Engine.written, storeWrite_eq, Memtable.get, Memtable.store_entries, SortedMap.find?_insert] at missing
      split at missing
      · cases missing
      · exact missing
    inMemory := fun _ => trivial }
  refine frame.of_views ?_ ?_
  · intro probe
    have seen := diskView_appendWal durable.log (writtenRecord world key value timestamp) durable.logged probe
    rw [writtenRecord_entry] at seen
    change next probe (diskView (world.disk.appendWal _ (writtenRecord world key value timestamp)) probe)
    rw [seen]
    split
    · rename_i same
      exact same ▸ stores
    · rename_i different
      exact keeps probe _ different (durable.onDisk probe)
  · intro probe
    rw [view_written]
    split
    · rename_i same
      exact same ▸ stores
    · rename_i different
      exact keeps probe _ different (durable.inMemory probe)

/-- A write. What may be read afterwards depends on how it ends: an acknowledged
write is read; one that failed or was cut off may be. -/
theorem wp_write (faults : WriteFaults may) (durable : Durable shape logs accepts world) {acked pending : Reading} {key : Key}
    {value : Option Bytes} {timestamp : Nat} (filled : logs (writtenRecord world key value timestamp))
    (keeps : ∀ probe held, probe ≠ key → accepts probe held → acked probe held)
    (stores : acked key (some (writtenValue world value)))
    (waits : ∀ probe held, accepts probe held → pending probe held)
    (settles : ∀ probe held, acked probe held → pending probe held)
    (tight : (written world key value timestamp).engine.activeMemtable.shouldFlush → Tight world)
    {post : Post Error (World EntryFile) Unit}
    (ok : ∀ after, Durable shape logs acked after → (Tight world → Tight after) → post.ok () after)
    (err : ∀ error after, Fallible may → Durable shape logs pending after → post.err error after)
    (crash : ∀ after, Closed shape logs pending after.disk → post.crash after) :
    wp may (write (entryFormat shape) key value timestamp) post world := by
  have unlogged : Durable shape logs pending { world with engine := { world.engine with lsn := world.engine.lsn + 1 } } :=
    { durable.mono waits with }
  have logged := durable.appended filled waits (settles _ _ stores)
  have stored := durable.written filled keeps stores
  refine wp_bind (wp_of_run (fun script => bumpLsnSequence_run script world) (wp_getState_bind ?_))
  refine wp_call_bind ?_ (fun failed => err _ _ ⟨_, by decide, failed⟩ unlogged) (fun _ => crash _ unlogged.toClosed)
  refine wp_call_bind ?_ (fun failed => err _ _ ⟨_, by decide, failed⟩ logged) (fun _ => crash _ logged.toClosed)
  refine wp_bind (wp_of_run (fun script => onEngine_run _ script _) (wp_getState_bind ?_))
  change wp may (if (written world key value timestamp).engine.activeMemtable.shouldFlush then flush (entryFormat shape)
    else pure ()) post (written world key value timestamp)
  split
  · rename_i full
    exact wp_flush faults stored (fun _ => tight full) ok
      (fun error after failed holds => err error after failed (holds.mono settles))
      (fun after holds => crash after (holds.mono settles))
  · exact wp_pure (ok _ stored id)

end

end Engine

end Enigma
