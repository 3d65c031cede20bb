import Enigma.Engine.LiveCompaction

/-! Runs without faults under size-tiered compaction. Reads go by table id and
merges by sequence; the two agree as long as every compaction scans its inputs in
full and leaves no newer version behind, and then reads are those of a plain
map. -/

namespace Enigma

namespace Engine

open Prog

/-- The calls of a client. Values are not empty; policies are size-tiered. -/
inductive Op where
  | put (key : Key) (value : Bytes) (filled : value ≠ []) (timestamp : Nat)
  | remove (key : Key) (timestamp : Nat)
  | flush
  | doCompactWork
  | compactNow
  | setCompactionPolicy (minMergeWidth maxMergeWidth : Nat) (bucketLow bucketHigh : ℚ)

namespace Op

def prog {F : Type} (format : TableFormat F) : Op → Prog Call Error (World F) Unit
  | .put key value _ timestamp => Engine.put format key value timestamp
  | .remove key timestamp => Engine.remove format key timestamp
  | .flush => Engine.flush format
  | .doCompactWork => do
    let _ ← Engine.doCompactWork format
    return ()
  | .compactNow => do
    let _ ← Engine.compactNow format
    return ()
  | .setCompactionPolicy minMergeWidth maxMergeWidth bucketLow bucketHigh =>
    Engine.setCompactionPolicy (sizeTieredCompactionPolicy minMergeWidth maxMergeWidth bucketLow bucketHigh)

/-- The same call on a plain map. -/
def onMap (map : Key → Option Bytes) : Op → Key → Option Bytes
  | .put key value _ _ => fun probe => if probe = key then some value else map probe
  | .remove key _ => fun probe => if probe = key then none else map probe
  | .flush | .doCompactWork | .compactNow | .setCompactionPolicy _ _ _ _ => map

end Op

section

variable (shape : TableShape)

def step (world : World EntryFile) (op : Op) : World EntryFile := ((op.prog (entryFormat shape)).run .calm world).2.2

def runOps (world : World EntryFile) (ops : List Op) : World EntryFile := ops.foldl (step shape) world

def mapAfter (ops : List Op) : Key → Option Bytes := ops.foldl Op.onMap (fun _ => none)

/-- What the policy would have compacted now can be scanned in full, and leaves no
newer version behind. -/
def SafePick (world : World EntryFile) : Prop :=
  ∀ candidate ∈ (world.engine.policy.pick world.engine.version.sstMetaToVector).toList,
    ScansWhole shape world.disk candidate.inputs ∧ LeavesNoNewer world candidate.inputs candidate.canDropTombstone

instance (world : World EntryFile) : Decidable (SafePick shape world) :=
  inferInstanceAs (Decidable (∀ candidate ∈ Option.toList _, _))

/-- The state in which a flush asks the policy for compaction work. -/
def afterFlush (world : World EntryFile) : List (World EntryFile) :=
  if world.engine.activeMemtable.count = 0 then []
  else [((flushMemtable (entryFormat shape)).run .calm world).2.2]

/-- The state in which a call asks the policy for compaction work, if it does. -/
def asksPolicy (world : World EntryFile) : Op → List (World EntryFile)
  | .put key value _ timestamp =>
    let after := written world key (some value) timestamp
    if after.engine.activeMemtable.shouldFlush then afterFlush shape after else []
  | .remove key timestamp =>
    let after := written world key none timestamp
    if after.engine.activeMemtable.shouldFlush then afterFlush shape after else []
  | .flush => afterFlush shape world
  | .doCompactWork => [world]
  | .compactNow | .setCompactionPolicy _ _ _ _ => []

/-- The pick that the call may lead to is safe. A call of `compact_now` takes all
tables, so only the scans matter. -/
def SafeCall (world : World EntryFile) : Op → Prop
  | .compactNow => ScansWhole shape world.disk (allInputs world)
  | op => ∀ asked ∈ asksPolicy shape world op, SafePick shape asked

instance (world : World EntryFile) : (op : Op) → Decidable (SafeCall shape world op)
  | .compactNow => inferInstanceAs (Decidable (ScansWhole shape world.disk (allInputs world)))
  | .put _ _ _ _ | .remove _ _ | .flush | .doCompactWork | .setCompactionPolicy _ _ _ _ =>
    inferInstanceAs (Decidable (∀ asked ∈ asksPolicy shape world _, SafePick shape asked))

/-- Every compaction of the run is safe. -/
def SafeRun : World EntryFile → List Op → Prop
  | _, [] => True
  | world, op :: ops => SafeCall shape world op ∧ SafeRun (step shape world op) ops

instance safeRunDecidable : (world : World EntryFile) → (ops : List Op) → Decidable (SafeRun shape world ops)
  | _, [] => .isTrue trivial
  | world, op :: ops =>
    haveI := safeRunDecidable (step shape world op) ops
    inferInstanceAs (Decidable (SafeCall shape world op ∧ _))

end

theorem ignored_run {F α : Type} {prog : Prog Call Error (World F) α} {world after : World F} {script : Script Call}
    {exit : Exit Error α} (run : prog.run script world = (exit, script, after)) (returns : exit ≠ .crash) :
    ((do
      let _ ← prog
      return () : Prog Call Error (World F) Unit).run script world).2.2 = after := by
  cases exit with
  | ok value => rw [bind_run_ok run, pure_run]
  | err error => rw [bind_run_err run]
  | crash => exact absurd rfl returns

section

variable {shape : TableShape} {world : World EntryFile}

def SizeTieredPolicy (policy : CompactionPolicy) : Prop :=
  ∃ minMergeWidth maxMergeWidth bucketLow bucketHigh,
    policy = sizeTieredCompactionPolicy minMergeWidth maxMergeWidth bucketLow bucketHigh

/-- What a step keeps: the order of versions, and a size-tiered policy. -/
structure Sound (world : World EntryFile) : Prop extends Consistent world where
  tiered : SizeTieredPolicy world.engine.policy

/-- An unaccepted output changes nothing that the engine reads. -/
theorem Consistent.withOutput (consistent : Consistent world) {task : CompactionTask} (valid : Task world task)
    (file : EntryFile) : Consistent (withOutput world task file) := by
  have layers := liveLayers_withOutput valid file
  exact {
    toStocked := consistent.toStocked.withOutput valid file
    ordered := layers ▸ consistent.ordered
    memtableNewer := layers ▸ consistent.memtableNewer
    memtableBelow := consistent.memtableBelow
    tablesBelow := layers ▸ consistent.tablesBelow }

/-- A task that leaves no newer version behind keeps the order and the reads,
whether its output is installed or not. -/
theorem runTask_sound (sound : Sound world) {task : CompactionTask} (valid : Task world task)
    (whole : ScansWhole shape world.disk task.inputs) (safe : LeavesNoNewer world task.inputs task.canDropTombstone)
    (oldest : DropsOldest world task.inputs task.canDropTombstone) :
    ∃ exit after, (runTask (entryFormat shape) task).run .calm world = (exit, .calm, after) ∧ exit ≠ .crash ∧
      Sound after ∧ ∀ key, (view after key).bind InternalValue.visible = (view world key).bind InternalValue.visible := by
  have readable := sound.toStocked.readable valid.live
  have ready := ready_of_readable shape sound.quiet valid.live readable valid.outside
  have output : outputFile (entryFormat shape) (fun _ => .done) (fileAt world.disk) (infoAt shape world.disk) task = _ :=
    outputFile_eq readable (fun _ _ _ _ => by decide)
  by_cases none : possibleKeys world.disk task.inputs = 0
  · have rejected := entryFormat_create_zero shape (mergedEntries shape world.disk task.inputs task.canDropTombstone)
    rw [← none, ← output] at rejected
    refine ⟨_, _, runTask_run_rejected benign_calm ready rejected, by simp [Error.isStaleVersion], ?_, ?_⟩
    · exact ⟨sound.toConsistent.withOutput valid _, sound.tiered⟩
    · intro key
      rw [view, liveLayers_withOutput valid]
      rfl
  · have accepted := entryFormat_create_whole shape
      (mergedEntries shape world.disk task.inputs task.canDropTombstone) none
    rw [← output] at accepted
    obtain ⟨versionSet, quiet, files, run⟩ := runTask_run benign_calm ready accepted
    rw [output] at run
    refine ⟨_, _, run, by simp, ⟨sound.toConsistent.compacted valid safe whole none quiet files, sound.tiered⟩, ?_⟩
    exact visible_compacted sound.toConsistent valid safe whole oldest _ files

theorem Sound.minted (sound : Sound world) : Sound (minted world) :=
  { sound with below := sound.toStocked.minted.below }

/-- What a size-tiered pick takes is live, and where it drops tombstones it is
the oldest part of what is live. -/
theorem pick_live (sound : Sound world) {candidate : CompactionCandidate}
    (picked : world.engine.policy.pick world.engine.version.sstMetaToVector = some candidate) :
    (∀ id ∈ candidate.inputs, id ∈ world.engine.version.files.keys) ∧
      DropsOldest world candidate.inputs candidate.canDropTombstone := by
  obtain ⟨_, _, _, _, policy⟩ := sound.tiered
  rw [policy] at picked
  obtain ⟨live, flag⟩ := SizeTiered.pick_spec (sizeTiered_pick_iff.mp picked)
  rw [sound.ids] at live flag
  refine ⟨live, ?_⟩
  intro drop
  rw [flag] at drop
  exact canDropTombstones_older drop

variable (shape) in
theorem doCompactWork_sound (sound : Sound world) (safe : SafePick shape world) :
    ∃ exit after, (doCompactWork (entryFormat shape)).run .calm world = (exit, .calm, after) ∧ exit ≠ .crash ∧
      Sound after ∧ ∀ key, (view after key).bind InternalValue.visible = (view world key).bind InternalValue.visible := by
  rw [doCompactWork, bind_run_ok (getState_run _ _)]
  cases picked : world.engine.policy.pick world.engine.version.sstMetaToVector with
  | none => exact ⟨_, world, rfl, by simp, sound, fun _ => rfl⟩
  | some candidate =>
    obtain ⟨live, oldest⟩ := pick_live sound picked
    obtain ⟨whole, leaves⟩ := safe candidate (by simp [picked])
    simp only [bind_run_ok (mintSstId_run _ _)]
    exact runTask_sound sound.minted (minted_task sound.toStocked candidate.canDropTombstone live) whole leaves oldest

variable (shape) in
theorem compactNow_sound (sound : Sound world) (whole : ScansWhole shape world.disk (allInputs world)) :
    ∃ exit after, (compactNow (entryFormat shape)).run .calm world = (exit, .calm, after) ∧ exit ≠ .crash ∧
      Sound after ∧ ∀ key, (view after key).bind InternalValue.visible = (view world key).bind InternalValue.visible := by
  rw [compactNow, bind_run_ok (getState_run _ _), ite_run]
  split
  · exact ⟨_, world, rfl, by simp, sound, fun _ => rfl⟩
  · have everything := mem_allInputs sound.toStocked
    rw [bind_run_ok (mintSstId_run _ _)]
    refine runTask_sound sound.minted
      (minted_task sound.toStocked true fun id member => (everything id).mp member) whole ?_ ?_
    · intro _ _ _ _ _ _ id member outside
      exact absurd ((everything id).mpr member) outside
    · intro _ id member outside
      exact absurd ((everything id).mpr member) outside

/-- A flush keeps every read; so does the compaction that follows it, if its
pick is safe. -/
theorem flush_sound (sound : Sound world) (safe : ∀ asked ∈ afterFlush shape world, SafePick shape asked) :
    ∃ exit after, (flush (entryFormat shape)).run .calm world = (exit, .calm, after) ∧ exit ≠ .crash ∧
      Sound after ∧ ∀ key, (view after key).bind InternalValue.visible = (view world key).bind InternalValue.visible := by
  by_cases filled : world.engine.activeMemtable.count = 0
  · refine ⟨.ok (), world, ?_, by simp, sound, fun _ => rfl⟩
    rw [flush, bind_run_ok (getState_run _ _), ite_run]
    simp [filled]
  · have accepted := entryFormat_create_whole shape world.engine.activeMemtable.entries.bindings filled
    rw [← flushedFile_eq] at accepted
    obtain ⟨versionSet, quiet, files, run⟩ := flushMemtable_run benign_calm sound.quiet accepted
    have asked : afterFlush shape world = [flushedWorld (entryFormat shape) world versionSet] := by
      simp only [afterFlush, filled, ↓reduceIte, List.cons.injEq, and_true]
      exact congrArg (fun result => result.2.2) run
    have flushed : Sound (flushedWorld (entryFormat shape) world versionSet) :=
      ⟨sound.toConsistent.flushed filled quiet files, sound.tiered⟩
    obtain ⟨exit, after, compacted, returns, kept, same⟩ :=
      doCompactWork_sound shape flushed (safe _ (by simp [asked]))
    refine ⟨.ok (), after, ?_, by simp, kept, ?_⟩
    · refine (flush_run filled run).trans ?_
      cases exit with
      | ok value => exact bind_run_ok (attempt_run_ok compacted)
      | err error => exact bind_run_ok (attempt_run_err compacted)
      | crash => exact absurd rfl returns
    · intro key
      rw [same key, view_flushed sound.toStocked files]

theorem write_sound (sound : Sound world) (key : Key) (value : Option Bytes) (timestamp : Nat)
    (safe : ∀ asked ∈ if (written world key value timestamp).engine.activeMemtable.shouldFlush then
      afterFlush shape (written world key value timestamp) else [], SafePick shape asked) :
    ∃ exit after, (write (entryFormat shape) key value timestamp).run .calm world = (exit, .calm, after) ∧
      exit ≠ .crash ∧ Sound after ∧ ∀ probe, (view after probe).bind InternalValue.visible =
        if probe = key then value else (view world probe).bind InternalValue.visible := by
  have stored : Sound (written world key value timestamp) := ⟨sound.toConsistent.written key value timestamp, sound.tiered⟩
  have seen : ∀ probe, (view (written world key value timestamp) probe).bind InternalValue.visible =
      if probe = key then value else (view world probe).bind InternalValue.visible := by
    intro probe
    rw [view_written]
    by_cases same : probe = key
    · cases value <;> simp [same, InternalValue.visible]
    · simp [same]
  have run := write_run (entryFormat shape) benign_calm world key value timestamp
  by_cases full : (written world key value timestamp).engine.activeMemtable.shouldFlush
  · simp only [full, ↓reduceIte] at safe run
    obtain ⟨exit, after, flushed, returns, kept, same⟩ := flush_sound stored safe
    exact ⟨exit, after, run.trans flushed, returns, kept, fun probe => (same probe).trans (seen probe)⟩
  · simp only [full] at run
    exact ⟨_, _, run, by simp, stored, seen⟩

/-- One call: the order of versions stays, and readers see what the plain map
has after the same call. -/
theorem step_sound (sound : Sound world) (op : Op) (safe : SafeCall shape world op) :
    Sound (step shape world op) ∧ ∀ key, (view (step shape world op) key).bind InternalValue.visible =
      op.onMap (fun key => (view world key).bind InternalValue.visible) key := by
  cases op with
  | put key value filled timestamp =>
    obtain ⟨exit, after, run, _, kept, seen⟩ := write_sound sound key (some value) timestamp safe
    have stepped : step shape world (.put key value filled timestamp) = after := by
      simp only [step, Op.prog, Engine.put, filled, ↓reduceIte, run]
    rw [stepped]
    exact ⟨kept, seen⟩
  | remove key timestamp =>
    obtain ⟨exit, after, run, _, kept, seen⟩ := write_sound sound key none timestamp safe
    have stepped : step shape world (.remove key timestamp) = after := by
      simp only [step, Op.prog, Engine.remove, run]
    rw [stepped]
    exact ⟨kept, seen⟩
  | flush =>
    obtain ⟨exit, after, run, _, kept, seen⟩ := flush_sound sound safe
    have stepped : step shape world .flush = after := by
      simp only [step, Op.prog, run]
    rw [stepped]
    exact ⟨kept, seen⟩
  | doCompactWork =>
    obtain ⟨exit, after, run, returns, kept, seen⟩ :=
      doCompactWork_sound shape sound (safe world (List.mem_singleton.mpr rfl))
    rw [step, Op.prog, ignored_run run returns]
    exact ⟨kept, seen⟩
  | compactNow =>
    obtain ⟨exit, after, run, returns, kept, seen⟩ := compactNow_sound shape sound safe
    rw [step, Op.prog, ignored_run run returns]
    exact ⟨kept, seen⟩
  | setCompactionPolicy minMergeWidth maxMergeWidth bucketLow bucketHigh =>
    exact ⟨⟨{ sound.toConsistent with }, ⟨minMergeWidth, maxMergeWidth, bucketLow, bucketHigh, rfl⟩⟩, fun _ => rfl⟩

/-- Whole runs, from the state of one call to the next. -/
theorem runOps_sound (ops : List Op) (sound : Sound world) (safe : SafeRun shape world ops) :
    Sound (runOps shape world ops) ∧ ∀ key, (view (runOps shape world ops) key).bind InternalValue.visible =
      ops.foldl Op.onMap (fun key => (view world key).bind InternalValue.visible) key := by
  induction ops generalizing world with
  | nil => exact ⟨sound, fun _ => rfl⟩
  | cons op later ih =>
    obtain ⟨first, rest⟩ := safe
    obtain ⟨kept, seen⟩ := step_sound sound op first
    obtain ⟨final, reads⟩ := ih kept rest
    refine ⟨final, fun key => (reads key).trans ?_⟩
    rw [List.foldl_cons, ← funext seen]

end

/-- The configuration of an engine with a size-tiered policy. -/
def tieredConfig (memtableSize minMergeWidth maxMergeWidth : Nat) (bucketLow bucketHigh : ℚ) : Config :=
  ⟨memtableSize, sizeTieredCompactionPolicy minMergeWidth maxMergeWidth bucketLow bucketHigh⟩

theorem fresh_sound {memtableSize minMergeWidth maxMergeWidth : Nat} {bucketLow bucketHigh : ℚ} {engine : Dazzle}
    {disk : Disk EntryFile} {shape : TableShape}
    (opens : (Engine.open (entryFormat shape)
      (tieredConfig memtableSize minMergeWidth maxMergeWidth bucketLow bucketHigh)).run .calm .empty =
        (.ok engine, .calm, disk)) :
    Sound ⟨disk, engine⟩ ∧ ∀ key, view ⟨disk, engine⟩ key = none := by
  rw [open_empty] at opens
  cases opens
  exact ⟨⟨consistent_fresh _, ⟨_, _, _, _, rfl⟩⟩, fun _ => rfl⟩

/-- Reads refine a map: in every run from an empty directory whose compactions are
safe, a read answers what a plain map has after the same calls. -/
theorem get_refines_map (shape : TableShape) {memtableSize minMergeWidth maxMergeWidth : Nat}
    {bucketLow bucketHigh : ℚ} {engine : Dazzle} {disk : Disk EntryFile}
    (opens : (Engine.open (entryFormat shape)
      (tieredConfig memtableSize minMergeWidth maxMergeWidth bucketLow bucketHigh)).run .calm .empty =
        (.ok engine, .calm, disk))
    (ops : List Op) (safe : SafeRun shape ⟨disk, engine⟩ ops) (key : Key) :
    get (entryFormat shape) (runOps shape ⟨disk, engine⟩ ops) key = .ok (mapAfter ops key) := by
  obtain ⟨sound, nothing⟩ := fresh_sound opens
  obtain ⟨final, reads⟩ := runOps_sound ops sound safe
  rw [get_eq final.toStocked, reads key]
  have initial : (fun key => (view ⟨disk, engine⟩ key).bind InternalValue.visible) = fun _ => none := by
    funext key
    rw [nothing key]
    rfl
  rw [initial]
  rfl

/-- Two flushed tables are merged, and both keys are read from the result. -/
theorem get_refines_map_two_tables :
    get (entryFormat .plain) (runOps .plain ⟨⟨.empty, SortedMap.empty.insert 1 []⟩,
        bootstrap (tieredConfig 100 2 2 (1 / 2) (3 / 2)) [] [] []⟩
      [.put [1] [10] (by simp) 0, .flush, .remove [2] 0, .flush]) [1] = .ok (some [10]) :=
  get_refines_map .plain (open_empty _ _) [.put [1] [10] (by simp) 0, .flush, .remove [2] 0, .flush]
    (by decide +kernel) [1]

/-- With merge width one, the second flush rewrites the older table under a newer
id, and the overwritten value is read again. -/
theorem overwritten_value_returns :
    ¬ ∀ key, get (entryFormat .plain) (runOps .plain ⟨⟨.empty, SortedMap.empty.insert 1 []⟩,
        bootstrap (tieredConfig 100 1 1 (1 / 2) (3 / 2)) [] [] []⟩
      [.put [1] [10] (by simp) 0, .flush, .put [1] [20] (by simp) 0, .flush]) key =
        .ok (mapAfter [.put [1] [10] (by simp) 0, .flush, .put [1] [20] (by simp) 0, .flush] key) := by
  intro refines
  have answer : get (entryFormat .plain) (runOps .plain ⟨⟨.empty, SortedMap.empty.insert 1 []⟩,
      bootstrap (tieredConfig 100 1 1 (1 / 2) (3 / 2)) [] [] []⟩
    [.put [1] [10] (by simp) 0, .flush, .put [1] [20] (by simp) 0, .flush]) [1] = .ok (some [10]) := by
    decide +kernel
  have expected := refines [1]
  rw [answer] at expected
  revert expected
  decide

/-- Dropping tombstones now could not bring a deleted value back: no live table
outside the pick holds an older version of a key whose newest version in the
pick is a tombstone. -/
def DropIsSound (world : World EntryFile) : Prop :=
  ∀ candidate ∈ (world.engine.policy.pick world.engine.version.sstMetaToVector).toList,
    candidate.canDropTombstone → ∀ input ∈ candidate.inputs, ∀ entry ∈ entriesAt world.disk input,
      entry.2.isTombstone → (∀ rival ∈ candidate.inputs, ∀ version ∈ entriesAt world.disk rival,
        version.1 = entry.1 → version.2.sequence ≤ entry.2.sequence) →
      ∀ id ∈ world.engine.version.files.keys, id ∉ candidate.inputs → ∀ other ∈ entriesAt world.disk id,
        other.1 = entry.1 → ¬ other.2.sequence < entry.2.sequence

instance (world : World EntryFile) : Decidable (DropIsSound world) :=
  inferInstanceAs (Decidable (∀ candidate ∈ Option.toList _, _))

theorem Sound.dropIsSound {world : World EntryFile} (sound : Sound world) : DropIsSound world := by
  intro candidate picked drop input isInput entry held _ _ id live outside other present same
  obtain ⟨inputsLive, oldest⟩ := pick_live sound (by simpa using picked)
  have inside : (liveLayers world).Holds (· ∈ candidate.inputs) entry.1 entry.2 :=
    (holds_inputs (liveLayers_inputs inputsLive)).mpr ⟨input, isInput, held⟩
  obtain ⟨row, found⟩ := SortedMap.mem_keys_iff.mp live
  have beside : (liveLayers world).Holds (· = id) entry.1 other.2 :=
    ⟨id, entriesAt world.disk id, by simp [liveLayers_find?, found], rfl, same ▸ present⟩
  have younger := sound.ordered.rank_lt inside beside (by
    intro low high member equal
    exact equal ▸ oldest drop id live outside low member)
  omega

/-- In every state of a run whose compactions are safe, a pick that drops
tombstones is sound. -/
theorem tombstone_drop_sound (shape : TableShape) {memtableSize minMergeWidth maxMergeWidth : Nat}
    {bucketLow bucketHigh : ℚ} {engine : Dazzle} {disk : Disk EntryFile}
    (opens : (Engine.open (entryFormat shape)
      (tieredConfig memtableSize minMergeWidth maxMergeWidth bucketLow bucketHigh)).run .calm .empty =
        (.ok engine, .calm, disk))
    (ops : List Op) (safe : SafeRun shape ⟨disk, engine⟩ ops) : DropIsSound (runOps shape ⟨disk, engine⟩ ops) :=
  (runOps_sound ops (fresh_sound opens).1 safe).1.dropIsSound

/-- Two tables on disk, and a policy that would now merge both. -/
theorem tombstone_drop_sound_two_tables :
    DropIsSound (runOps .plain ⟨⟨.empty, SortedMap.empty.insert 1 []⟩,
      bootstrap (tieredConfig 100 4 8 (1 / 2) (3 / 2)) [] [] []⟩
        [.put [1] [10] (by simp) 0, .flush, .remove [1] 0, .flush, .setCompactionPolicy 2 2 (1 / 2) (3 / 2)]) :=
  tombstone_drop_sound .plain (open_empty _ _)
    [.put [1] [10] (by simp) 0, .flush, .remove [1] 0, .flush, .setCompactionPolicy 2 2 (1 / 2) (3 / 2)]
    (by decide +kernel)

/-- After the rewrite of the older table under a newer id, the tombstone is in
the table with the oldest id, and the policy would drop it. -/
theorem tombstone_dropped_before_older_value :
    ¬ DropIsSound (runOps .plain ⟨⟨.empty, SortedMap.empty.insert 1 []⟩,
      bootstrap (tieredConfig 100 1 1 (1 / 2) (3 / 2)) [] [] []⟩
        [.put [1] [10] (by simp) 0, .flush, .remove [1] 0, .flush]) := by
  decide +kernel

end Engine

end Enigma
