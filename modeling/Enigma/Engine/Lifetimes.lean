import Enigma.Engine.Recovery

/-! A directory through the lives of the engines that open it. No call fails; a
process may die between two operations, and the next one opens what it left.
Work on tables keeps whatever the counter, the version set and new table files
have no part in. -/

namespace Enigma

namespace Engine

open Prog

/-- Nothing fails, and nobody dies within a call. -/
def Faultless (_ : Call) (fate : Fate) : Prop := fate = .done

theorem wp_faultless {σ α : Type} {prog : Prog Call Error σ α} {post : Post Error σ α} {state after : σ}
    {exit : Exit Error α} (run : prog.run .calm state = (exit, .calm, after)) (holds : post.after exit after) :
    wp Faultless prog post state := by
  intro script allowed
  have calm : script = .calm := by
    funext index kind
    exact allowed index kind
  rw [calm, run]
  exact ⟨fun _ _ => rfl, holds⟩

/-- How a faultless run ends. -/
theorem faultless_run {σ α : Type} {prog : Prog Call Error σ α} {post : Post Error σ α} {state : σ}
    (holds : wp Faultless prog post state) : post.after (prog.run .calm state).1 (prog.run .calm state).2.2 :=
  (holds .calm fun _ _ => rfl).2

theorem wp_faultless_call {σ : Type} {kind : Call} {error : Error} {effect : σ → σ} {post : Post Error σ Unit} {state : σ}
    (done : post.ok () (effect state)) : wp Faultless (call kind error effect) post state :=
  wp_faultless rfl done

/-- An invariant that work on tables keeps, as long as the tables written are of a
kind, and merges of such tables are of the kind again. -/
structure TableInvariant {F : Type} (format : TableFormat F) (inv : World F → Prop) (fine : List Entry → Prop) : Prop where
  mint : ∀ world, inv world → inv { world with engine := { world.engine with nextSstSeq := world.engine.nextSstSeq + 1 } }
  publish : ∀ world versionSet, inv world → inv { world with engine := { world.engine with versionSet := versionSet } }
  unlink : ∀ world id, inv world → inv { world with disk := world.disk.dropTable id }
  write : ∀ world id estimatedKeys entries, inv world → fine entries →
    inv { world with disk := world.disk.putTable id (format.complete estimatedKeys entries) }
  merge : ∀ (world : World F) (files : List F) full, inv world → (∀ file ∈ files, ∃ id, world.disk.sst.find? id = some file) →
    fine (compactedEntries (files.map fun file => format.scan file fun _ => none) full)

section

variable {F : Type} {format : TableFormat F} {inv : World F → Prop} {fine : List Entry → Prop} {world : World F}

theorem wp_faultless_readTable {σ : Type} {disk : σ → Disk F} {id : SSTableId} {state : σ} {post : Post Error σ TableInfo}
    (ok : ∀ file info, (disk state).sst.find? id = some file → format.create file = .ok info → post.ok info state)
    (err : ∀ error, post.err error state) : wp Faultless (readTable format disk id) post state := by
  cases found : (disk state).sst.find? id with
  | none =>
    refine wp_bind (wp_faultless_call (wp_getState_bind ?_))
    simp only [found]
    exact wp_fail (err noSuchFile)
  | some file =>
    refine wp_faultless (readTable_run format benign_calm disk found) ?_
    cases created : format.create file with
    | error error => exact err error
    | ok info => exact ok file info found created

theorem wp_faultless_reclaim (kept : TableInvariant format inv fine) (holds : inv world) (ids : List SSTableId)
    {post : Post Error (World F) Unit} (ok : ∀ after, inv after → post.ok () after) :
    wp Faultless (reclaim ids) post world := by
  refine wp_forEach (fun _ after => inv after) holds ok ?_
  intro id rest after invariant
  refine wp_bind (wp_attempt (wp_faultless_call ?_))
  exact wp_pure (kept.unlink after id invariant)

theorem wp_faultless_applyEdit (kept : TableInvariant format inv fine) (holds : inv world) (edit : VersionEdit)
    {post : Post Error (World F) Unit} (ok : ∀ after, inv after → post.ok () after)
    (err : ∀ error, edit.removed ≠ [] → post.err error world) : wp Faultless (applyEdit edit) post world := by
  refine wp_getState_bind ?_
  split
  · rename_i error refused
    refine wp_fail (err error ?_)
    intro empty
    obtain ⟨_, id, removed, _⟩ := VersionSet.apply_error_iff.mp refused
    simp [empty] at removed
  · refine wp_bind (wp_of_run (fun script => onEngine_run _ script _) ?_)
    exact wp_faultless_reclaim kept (kept.publish world _ holds) _ ok

theorem wp_faultless_compact (kept : TableInvariant format inv fine) (holds : inv world) (inputs : List SSTableId)
    (outputId : SSTableId) (full : Bool) : wp Faultless (compact format inputs outputId full) (Post.always inv) world := by
  refine wp_bind (wp_mapEach (fun id _ => ∃ file, world.disk.sst.find? id = some file) ?_ ?_)
  · intro id _
    refine wp_bind (wp_attempt (wp_faultless_readTable ?_ ?_))
    · intro file info found _
      exact wp_pure ⟨rfl, file, found⟩
    · exact fun error => wp_fail holds
  · intro infos present
    have stored : ∀ id ∈ inputs, ∃ file, world.disk.sst.find? id = some file := by
      intro id member
      obtain ⟨_, _, found⟩ := forall₂_left present member
      exact found
    refine wp_bind (wp_mapEach (fun id cursor => ∃ file, world.disk.sst.find? id = some file ∧
      cursor = format.scan file fun _ => none) ?_ ?_)
    · intro id member
      obtain ⟨file, found⟩ := stored id member
      refine wp_faultless (scanTable_run benign_calm found) ⟨rfl, file, found, ?_⟩
      simp [cursorOf]
    · intro cursors scanned
      have merged : ∃ files : List F, cursors = files.map (fun file => format.scan file fun _ => none) ∧
          ∀ file ∈ files, ∃ id, world.disk.sst.find? id = some file := by
        clear present stored
        induction scanned with
        | nil => exact ⟨[], rfl, by simp⟩
        | cons here _ ih =>
          obtain ⟨file, found, same⟩ := here
          obtain ⟨files, rest, each⟩ := ih
          exact ⟨file :: files, by rw [List.map_cons, same, rest], List.forall_mem_cons.mpr ⟨⟨_, found⟩, each⟩⟩
      obtain ⟨files, rfl, each⟩ := merged
      refine wp_bind (wp_faultless (writeTable_run benign_calm _ _ _ _) ?_)
      exact wp_pure (kept.write world _ _ _ holds (kept.merge world files full holds each))

theorem wp_faultless_runTask (kept : TableInvariant format inv fine) (holds : inv world) (task : CompactionTask) :
    wp Faultless (runTask format task) (Post.always inv) world := by
  refine wp_bind (wp_mono (wp_faultless_compact kept holds _ _ _) ?_ (fun _ _ after => after) (fun _ after => after))
  intro _ written invariant
  refine wp_bind (wp_attempt ?_)
  have answer : ∀ error after, inv after → wp Faultless (if error.isStaleVersion then return none else fail error)
      (Post.always inv : Post Error (World F) (Option SSTableId)) after := by
    intro error after holds
    split
    · exact wp_pure holds
    · exact wp_fail holds
  refine wp_bind (wp_faultless_readTable ?_ fun error => answer error _ invariant)
  intro file info _ _
  refine wp_bind (wp_faultless_call ?_)
  exact wp_faultless_applyEdit kept invariant _ (fun after holds => wp_pure holds) fun error _ => answer error _ invariant

theorem wp_faultless_doCompactWork (kept : TableInvariant format inv fine) (holds : inv world) :
    wp Faultless (doCompactWork format) (Post.always inv) world := by
  refine wp_getState_bind ?_
  split
  · exact wp_pure holds
  · refine wp_bind (wp_of_run (fun script => mintSstId_run script _) ?_)
    exact wp_faultless_runTask kept (kept.mint world holds) _

theorem wp_faultless_compactNow (kept : TableInvariant format inv fine) (holds : inv world) :
    wp Faultless (compactNow format) (Post.always inv) world := by
  refine wp_getState_bind ?_
  dsimp only
  split
  · exact wp_pure holds
  · refine wp_bind (wp_of_run (fun script => mintSstId_run script _) ?_)
    exact wp_faultless_runTask kept (kept.mint world holds) _

/-- A memtable is flushed: what holds until the new segment is minted, and what
holds from its creation on. An error comes only before. -/
theorem wp_faultless_flushMemtable {opened : World F → Prop} {post : Post Error (World F) Unit}
    (kept : TableInvariant format inv fine) (later : TableInvariant format opened fine) (holds : inv world)
    (entries : fine world.engine.activeMemtable.entries.bindings)
    (creates : ∀ before, inv before → opened
      ⟨before.disk.openWal before.engine.nextWalSeq, { before.engine with nextWalSeq := before.engine.nextWalSeq + 1 }⟩)
    (err : ∀ error after, inv after → post.err error after)
    (ok : ∀ before after, inv before → opened after → post.ok ()
      ⟨after.disk.dropWal (before.engine.nextWalSeq - 1), { after.engine with
        walWriter := before.engine.nextWalSeq, activeMemtable := .new after.engine.memtableSize }⟩) :
    wp Faultless (flushMemtable format) post world := by
  refine wp_getState_bind (wp_bind (wp_of_run (fun script => mintSstId_run script _) ?_))
  refine wp_bind (wp_faultless (writeTable_run benign_calm _ _ _ _) ?_)
  have written := kept.write _ world.engine.nextSstSeq world.engine.activeMemtable.count _ (kept.mint world holds) entries
  refine wp_bind (wp_faultless_readTable ?_ fun error => err error _ written)
  intro file info _ _
  refine wp_bind (wp_of_run (fun script => mintWalId_run script _) ?_)
  refine wp_bind (wp_faultless_call ?_)
  refine wp_bind (wp_faultless_applyEdit later (creates _ written) _ ?_ fun _ added => absurd rfl added)
  intro after installed
  refine wp_bind (wp_of_run (fun script => onEngine_run _ script _) ?_)
  exact wp_faultless_call (ok _ after written installed)

theorem wp_faultless_write {post : Post Error (World F) Unit} {key : Key} {value : Option Bytes} {timestamp : Nat}
    (flushes : wp Faultless (flush format) post (written world key value timestamp))
    (ok : post.ok () (written world key value timestamp)) : wp Faultless (write format key value timestamp) post world := by
  refine wp_bind (wp_of_run (fun script => bumpLsnSequence_run script world) (wp_getState_bind ?_))
  refine wp_bind (wp_faultless_call (wp_bind (wp_faultless_call ?_)))
  refine wp_bind (wp_of_run (fun script => onEngine_run _ script _) (wp_getState_bind ?_))
  change wp Faultless (if (written world key value timestamp).engine.activeMemtable.shouldFlush then flush format
    else return ()) post (written world key value timestamp)
  split
  · exact flushes
  · exact wp_pure ok

/-- What recovery leaves after its flush: the old segments are gone, and the
counter of sequences is behind all that were seen. -/
def cleaned (segments : List (Nat × List WalRecord)) (highest : Nat) (world : World F) : World F where
  disk := segments.foldl (fun disk segment => disk.dropWal segment.1) world.disk
  engine := { world.engine with lsn := max world.engine.lsn highest + 1 }

theorem foldl_dropWal (segments : List (Nat × List WalRecord)) (disk : Disk F) :
    segments.foldl (fun disk segment => disk.dropWal segment.1) disk =
      { disk with wal := (segments.map Prod.fst).foldl SortedMap.erase disk.wal } := by
  induction segments generalizing disk with
  | nil => rfl
  | cons segment later ih => exact ih (disk.dropWal segment.1)

theorem mem_cleaned_wal {segments : List (Nat × List WalRecord)} {highest id : Nat} :
    id ∈ (cleaned segments highest world).disk.wal.keys ↔ id ∈ world.disk.wal.keys ∧ id ∉ segments.map Prod.fst := by
  rw [cleaned, foldl_dropWal, SortedMap.mem_keys_iff, SortedMap.foldl_erase_find?, SortedMap.mem_keys_iff]
  by_cases dropped : id ∈ segments.map Prod.fst <;> simp [dropped]

theorem wp_faultless_recover {post : Post Error (World F) Nat} (none : oldWalFiles world = [] → post.ok 0 world)
    (flushes : wp Faultless (flushRecovered format)
      ⟨fun _ after => post.ok (highestSeen 0 (foundRecords (oldWalFiles world)))
          (cleaned (oldWalFiles world) (highestSeen 0 (foundRecords (oldWalFiles world))) after),
        post.err, post.crash⟩ (replayedWorld world (foundRecords (oldWalFiles world)))) :
    wp Faultless (recover format) post world := by
  refine wp_getState_bind ?_
  dsimp only
  split
  · rename_i nothing
    exact wp_pure (none nothing)
  · refine wp_bind (wp_faultless (replaySegments_run _ 0 world) ?_)
    refine wp_bind (wp_mono flushes ?_ (fun _ _ holds => holds) (fun _ holds => holds))
    intro _ after ok
    refine wp_bind (wp_forEach (fun rest current => rest.foldl (fun disk segment => disk.dropWal segment.1) current.disk =
      (oldWalFiles world).foldl (fun disk segment => disk.dropWal segment.1) after.disk ∧ current.engine = after.engine)
      ⟨rfl, rfl⟩ ?_ ?_)
    · rintro ⟨disk, engine⟩ ⟨dropped, same⟩
      refine wp_bind (wp_of_run (fun script => onEngine_run _ script _) ?_)
      refine wp_pure ?_
      cases same
      rw [List.foldl_nil] at dropped
      cases dropped
      exact ok
    · intro segment rest current holds
      exact wp_faultless_call holds

theorem wp_faultless_open {post : Post Error (Disk F) Dazzle} {config : Config} {disk : Disk F}
    (err : ∀ error, post.err error disk)
    (recovers : ∀ metas, List.Forall₂ (ReadFrom format disk) disk.sst.keys metas → wp Faultless (recover format)
      ⟨fun _ after => post.ok after.engine after.disk, fun error after => post.err error after.disk,
        fun after => post.crash after.disk⟩ (bootWorld config disk metas)) :
    wp Faultless (Engine.open format config) post disk := by
  refine wp_getState_bind (wp_bind (wp_mapEach (ReadFrom format disk) ?_ ?_))
  · intro id _
    refine wp_bind (wp_faultless_readTable ?_ err)
    intro file info found accepted
    exact wp_pure ⟨rfl, file, info, found, accepted, rfl⟩
  · intro metas read
    refine wp_bind (wp_faultless_call (wp_bind (wp_nested ?_)))
    have entered : World.mk (disk.openWal (highestOf disk.wal.keys + 1)) (bootstrap config disk.wal.keys
        (disk.openWal (highestOf disk.wal.keys + 1)).sst.keys metas) = bootWorld config disk metas := by
      rw [Disk.openWal_sst, bootWorld]
    rw [entered]
    refine wp_mono (recovers metas read) ?_ (fun _ _ holds => holds) (fun _ holds => holds)
    exact fun _ after ok => wp_pure ok

end

/-- A directory, and the engine of the process that has it open. -/
structure Process (F : Type) where
  disk : Disk F
  engine : Option Dazzle

inductive Operation where
  | put (key : Key) (value : Bytes) (timestamp : Nat)
  | remove (key : Key) (timestamp : Nat)
  | flush
  | doCompactWork
  | compactNow

inductive Action where
  | operate (operation : Operation)
  /-- A new process opens the directory; the one before, if there is one, is gone. -/
  | open (config : Config)
  | crash

section

variable {F : Type} (format : TableFormat F)

def Operation.prog : Operation → Prog Call Error (World F) Unit
  | .put key value timestamp => Engine.put format key value timestamp
  | .remove key timestamp => Engine.remove format key timestamp
  | .flush => Engine.flush format
  | .doCompactWork => do
    let _ ← Engine.doCompactWork format
    return ()
  | .compactNow => do
    let _ ← Engine.compactNow format
    return ()

def operate (operation : Operation) (process : Process F) : Process F :=
  match process.engine with
  | none => process
  | some engine =>
    let after := ((operation.prog format).run .calm ⟨process.disk, engine⟩).2.2
    ⟨after.disk, some after.engine⟩

def boot (config : Config) (disk : Disk F) : Process F :=
  match (Engine.open format config).run .calm disk with
  | (.ok engine, _, after) => ⟨after, some engine⟩
  | (.err _, _, after) | (.crash, _, after) => ⟨after, none⟩

def act (process : Process F) : Action → Process F
  | .operate operation => operate format operation process
  | .open config => boot format config process.disk
  | .crash => { process with engine := none }

def lifetime (actions : List Action) : Process F := actions.foldl (act format) ⟨Disk.empty, none⟩

/-- What holds of a process, running or not. -/
structure Keeps (closed : Disk F → Prop) (inv : World F → Prop) (process : Process F) : Prop where
  shut : closed process.disk
  running : ∀ engine, process.engine = some engine → inv ⟨process.disk, engine⟩

variable {format} {closed : Disk F → Prop} {inv : World F → Prop}

theorem Keeps.operate {process : Process F} (keeps : Keeps closed inv process) (rests : ∀ world, inv world → closed world.disk)
    {operation : Operation} (operates : ∀ world, inv world → wp Faultless (operation.prog format) (Post.always inv) world) :
    Keeps closed inv (operate format operation process) := by
  rw [Engine.operate]
  cases running : process.engine with
  | none => exact keeps
  | some engine =>
    have after := faultless_run (operates _ (keeps.running engine running))
    have holds : inv ((operation.prog format).run .calm ⟨process.disk, engine⟩).2.2 := by
      cases exit : ((operation.prog format).run .calm ⟨process.disk, engine⟩).1 <;> rw [exit] at after <;> exact after
    refine ⟨rests _ holds, ?_⟩
    intro other same
    cases same
    exact holds

theorem keeps_boot {config : Config} {disk : Disk F} (rests : ∀ world, inv world → closed world.disk)
    (opens : wp Faultless (Engine.open format config)
      ⟨fun engine after => inv ⟨after, engine⟩, fun _ => closed, closed⟩ disk) :
    Keeps closed inv (boot format config disk) := by
  have after := faultless_run opens
  rw [boot]
  rcases result : (Engine.open format config).run .calm disk with ⟨exit, rest, left⟩
  rw [result] at after
  cases exit with
  | ok engine =>
    refine ⟨rests _ after, ?_⟩
    intro other same
    cases same
    exact after
  | err error => exact ⟨after, by simp⟩
  | crash => exact ⟨after, by simp⟩

/-- What writes and flushes keep, and work on tables too, is kept by every
operation. -/
theorem wp_faultless_operation
    (kept : ∀ world, inv world → ∃ work fine, TableInvariant format work fine ∧ work world ∧ ∀ after, work after → inv after)
    (writes : ∀ world key value timestamp, inv world → inv (written world key value timestamp))
    (flushes : ∀ world, inv world → wp Faultless (flush format) (Post.always inv) world) (operation : Operation)
    (world : World F) (holds : inv world) : wp Faultless (operation.prog format) (Post.always inv) world := by
  obtain ⟨work, fine, tables, here, leads⟩ := kept world holds
  have stores : ∀ key value timestamp, wp Faultless (write format key value timestamp) (Post.always inv) world :=
    fun key value timestamp =>
      wp_faultless_write (flushes _ (writes world key value timestamp holds)) (writes world key value timestamp holds)
  cases operation with
  | put key value timestamp =>
    change wp Faultless (put format key value timestamp) _ world
    rw [Engine.put]
    split
    · exact wp_fail holds
    · exact stores key _ timestamp
  | remove key timestamp => exact stores key none timestamp
  | flush => exact flushes world holds
  | doCompactWork =>
    refine wp_bind (wp_mono (wp_faultless_doCompactWork tables here) ?_ (fun _ => leads) leads)
    exact fun _ after kept => wp_pure (leads after kept)
  | compactNow =>
    refine wp_bind (wp_mono (wp_faultless_compactNow tables here) ?_ (fun _ => leads) leads)
    exact fun _ after kept => wp_pure (leads after kept)

theorem TableInvariant.kept {fine : List Entry → Prop} (kept : TableInvariant format inv fine) (world : World F)
    (holds : inv world) : ∃ work fine, TableInvariant format work fine ∧ work world ∧ ∀ after, work after → inv after :=
  ⟨inv, fine, kept, holds, fun _ after => after⟩

/-- What an open establishes and every operation keeps holds of every engine. -/
theorem lifetime_keeps (empty : closed Disk.empty) (rests : ∀ world, inv world → closed world.disk)
    (operates : ∀ (operation : Operation) world, inv world → wp Faultless (operation.prog format) (Post.always inv) world)
    (opens : ∀ config disk, closed disk → wp Faultless (Engine.open format config)
      ⟨fun engine after => inv ⟨after, engine⟩, fun _ => closed, closed⟩ disk) (actions : List Action) :
    Keeps closed inv (lifetime format actions) := by
  have general : ∀ (actions : List Action) (process : Process F), Keeps closed inv process →
      Keeps closed inv (actions.foldl (act format) process) := by
    intro actions
    induction actions with
    | nil => exact fun _ keeps => keeps
    | cons action later ih =>
      intro process keeps
      refine ih _ ?_
      cases action with
      | operate operation => exact keeps.operate rests (operates operation)
      | «open» config => exact keeps_boot rests (opens config _ keeps.shut)
      | crash => exact ⟨keeps.shut, by simp [act]⟩
  exact general actions _ ⟨empty, by simp⟩

end

end Engine

end Enigma
