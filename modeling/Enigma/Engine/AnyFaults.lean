import Enigma.Engine.Recovery

/-! What calls of every fate leave alone. Work on tables touches table files, the
counter of their ids and the version set, and nothing else, however it ends. -/

namespace Enigma

namespace Engine

open Prog

section

variable {F : Type} {may : Call → Fate → Prop} {inv : World F → Prop}

/-- An invariant that table files have no part in, and that the publication of
tables with minted ids keeps. -/
structure Frame (inv : World F → Prop) : Prop where
  mint : ∀ world, inv world →
    inv { world with engine := { world.engine with nextSstSeq := world.engine.nextSstSeq + 1 } }
  tables : ∀ world sst, inv world → inv { world with disk := { world.disk with sst := sst } }
  publish : ∀ world edit ids versionSet, inv world → (∀ row ∈ edit.added, row.id < world.engine.nextSstSeq) →
    world.engine.versionSet.apply (fun _ => 0) edit = .ok (ids, versionSet) →
    inv { world with engine := { world.engine with versionSet := versionSet } }

theorem preserves_passive {σ : Type} {inv : σ → Prop} (kind : Call) : Preserves may inv (passive kind) :=
  .call fun _ holds => holds

theorem preserves_readTable {σ : Type} {inv : σ → Prop} (format : TableFormat F) (disk : σ → Disk F) (id : SSTableId) :
    Preserves may inv (readTable format disk id) := by
  refine .bind (preserves_passive _) fun _ state holds => wp_getState_bind ?_
  split
  · exact wp_fail holds
  · refine Preserves.bind (preserves_passive _) (fun _ => ?_) state holds
    refine .bind (preserves_passive _) fun _ => .bind (preserves_passive _) fun _ => ?_
    split
    · exact .fail _
    · exact .pure _

theorem preserves_scanTable (format : TableFormat F) (id : SSTableId) : Preserves may inv (scanTable format id) := by
  intro world holds
  refine wp_getState_bind ?_
  split
  · exact wp_fail holds
  · exact Preserves.bind (.mapEach fun _ => .attempt (preserves_passive _)) (fun _ => .pure _) world holds

theorem preserves_openInput (format : TableFormat F) (id : SSTableId) : Preserves may inv (openInput format id) := by
  refine .bind (.attempt (preserves_readTable format _ id)) fun answer => ?_
  cases answer with
  | error error => exact .fail _
  | ok info => exact .pure _

theorem preserves_writeTable (format : TableFormat F) {id : SSTableId} (estimatedKeys : Nat) (entries : List Entry)
    (put : ∀ file world, inv world → inv { world with disk := world.disk.putTable id file }) :
    Preserves may inv (writeTable format id estimatedKeys entries) := by
  refine .bind (.call (put _)) fun _ => .bind (.forEach fun file => .call (put file)) fun _ => ?_
  exact .bind (preserves_passive _) fun _ => preserves_passive _

theorem preserves_replaySegment
    (stores : ∀ world memtable, inv world →
      inv { world with engine := { world.engine with activeMemtable := memtable } })
    (lastReads : Nat) (records : List WalRecord) (highest : Nat) :
    Preserves may inv (replaySegment lastReads records highest) := by
  induction records generalizing highest with
  | nil => exact .bind (.attempt (.forEach fun _ => preserves_passive _)) fun _ => .pure _
  | cons record later ih =>
    refine .bind (.attempt (.bind (preserves_passive _) fun _ => preserves_passive _)) fun answer => ?_
    cases answer with
    | error error => exact .pure _
    | ok _ =>
      intro world holds
      refine wp_bind (wp_of_run (fun script => onEngine_run _ script _) ?_)
      exact ih (max highest record.sequence) _ (stores world _ holds)

/-- A replay changes the memtable only. -/
theorem preserves_replaySegments
    (stores : ∀ world memtable, inv world →
      inv { world with engine := { world.engine with activeMemtable := memtable } })
    (segments : List (Nat × List WalRecord)) (highest : Nat) : Preserves may inv (replaySegments segments highest) := by
  induction segments generalizing highest with
  | nil => exact .pure _
  | cons segment later ih =>
    exact .bind (preserves_passive _) fun _ => .bind (preserves_replaySegment stores _ _ highest) ih

theorem lookupInternal_congr {format : TableFormat F} {disk other : Disk F} {ids : List SSTableId}
    (same : ∀ id ∈ ids, disk.sst.find? id = other.sst.find? id) (key : Key) :
    lookupInternal format disk key ids = lookupInternal format other key ids := by
  induction ids with
  | nil => rfl
  | cons id older ih =>
    have rest := ih fun later member => same later (by simp [member])
    simp only [lookupInternal, same id (by simp), rest]

namespace Frame

variable (frame : Frame inv)

include frame

/-- Reclaiming never returns an error. -/
theorem reclaim (ids : List SSTableId) {world : World F} (holds : inv world) {post : Post Error (World F) Unit}
    (ok : ∀ after, inv after → post.ok () after) (crash : ∀ after, Dies may → inv after → post.crash after) :
    wp may (reclaim ids) post world := by
  refine wp_forEach (fun _ => inv) holds ok ?_
  intro id rest after kept
  refine wp_bind (wp_attempt (wp_call ?_ (fun _ => wp_pure kept) (fun died => crash after ⟨_, died⟩ kept)))
  exact wp_pure (frame.tables after _ kept)

theorem applyEdit (edit : VersionEdit) {world : World F} (holds : inv world)
    (minted : ∀ row ∈ edit.added, row.id < world.engine.nextSstSeq) :
    wp may (applyEdit edit) ⟨fun _ => inv, fun _ after => edit.removed ≠ [] ∧ inv after,
      fun after => Dies may ∧ inv after⟩ world := by
  refine wp_getState_bind ?_
  split
  · rename_i error refused
    obtain ⟨_, id, removed, _⟩ := VersionSet.apply_error_iff.mp refused
    exact wp_fail ⟨List.ne_nil_of_mem removed, holds⟩
  · rename_i ids versionSet applied
    have published := frame.publish world edit ids versionSet holds minted applied
    refine wp_bind (wp_of_run (fun script => onEngine_run _ script _) ?_)
    exact frame.reclaim ids published (fun _ kept => kept) fun _ died kept => ⟨died, kept⟩

theorem compact (format : TableFormat F) (inputs : List SSTableId) (outputId : SSTableId) (full : Bool) :
    Preserves may inv (compact format inputs outputId full) := by
  refine .bind (.mapEach (preserves_openInput format)) fun infos => ?_
  refine .bind (.mapEach (preserves_scanTable format)) fun cursors => ?_
  exact .bind (preserves_writeTable format _ _ fun _ world holds => frame.tables world _ holds) fun _ => .pure _

theorem minted (id : SSTableId) : Frame fun world => inv world ∧ id < world.engine.nextSstSeq where
  mint := fun world holds => ⟨frame.mint world holds.1, holds.2.trans (Nat.lt_succ_self _)⟩
  tables := fun world sst holds => ⟨frame.tables world sst holds.1, holds.2⟩
  publish := fun world edit ids versionSet holds minted applied =>
    ⟨frame.publish world edit ids versionSet holds.1 minted applied, holds.2⟩

theorem install (format : TableFormat F) (task : CompactionTask) :
    Preserves may (fun world => inv world ∧ task.outputId < world.engine.nextSstSeq) (install format task) := by
  refine .bind (preserves_readTable format _ _) fun info => .bind (preserves_passive _) fun _ world holds => ?_
  have added : ∀ row ∈ [tableMeta task.outputId info], row.id < world.engine.nextSstSeq := by
    intro row member
    rw [List.mem_singleton.mp member]
    exact holds.2
  exact wp_mono ((frame.minted task.outputId).applyEdit ⟨task.inputs, _⟩ holds added) (fun _ _ kept => kept)
    (fun _ _ kept => kept.2) (fun _ kept => kept)

theorem runTask (format : TableFormat F) (task : CompactionTask) :
    Preserves may (fun world => inv world ∧ task.outputId < world.engine.nextSstSeq) (runTask format task) := by
  refine .bind ((frame.minted task.outputId).compact format _ _ _) fun _ => ?_
  refine .bind (.attempt (frame.install format task)) fun answer => ?_
  cases answer with
  | ok _ => exact .pure _
  | error error =>
    change Preserves may _ (if error.isStaleVersion then return none else fail error)
    split
    · exact .pure _
    · exact .fail _

/-- A task that is made for the next id. -/
theorem runMinted (format : TableFormat F) (task : SSTableId → CompactionTask) (output : ∀ id, (task id).outputId = id)
    {world : World F} (holds : inv world) : wp may (do
      let outputId ← mintSstId
      Engine.runTask format (task outputId))
        ⟨fun _ => inv, fun _ => inv, fun after => Dies may ∧ inv after⟩ world := by
  refine wp_bind (wp_of_run (fun script => mintSstId_run script _) ?_)
  refine wp_mono (frame.runTask format (task world.engine.nextSstSeq) _ ⟨frame.mint world holds, ?_⟩)
    (fun _ _ kept => kept.1) (fun _ _ kept => kept.1) (fun _ kept => ⟨kept.1, kept.2.1⟩)
  rw [output]
  exact Nat.lt_succ_self _

theorem doCompactWork (format : TableFormat F) : Preserves may inv (doCompactWork format) := by
  intro world holds
  refine wp_getState_bind ?_
  split
  · exact wp_pure holds
  · rename_i candidate _
    exact frame.runMinted format (fun id => ⟨candidate.inputs, id, candidate.canDropTombstone⟩) (fun _ => rfl) holds

theorem compactNow (format : TableFormat F) : Preserves may inv (compactNow format) := by
  intro world holds
  refine wp_getState_bind ?_
  dsimp only
  split
  · exact wp_pure holds
  · exact frame.runMinted format (fun id => ⟨allInputs world, id, true⟩) (fun _ => rfl) holds

end Frame

variable (format : TableFormat F)

/-- What holds while the table is written holds until the new segment is there. -/
theorem wp_publishMemtable_any {writing : World F → Prop} {world : World F} {post : Post Error (World F) Nat}
    (start : writing { world with engine := { world.engine with nextSstSeq := world.engine.nextSstSeq + 1 } })
    (put : ∀ file after, writing after →
      writing { after with disk := after.disk.putTable world.engine.nextSstSeq file })
    (rotate : ∀ after, writing after →
      writing { after with engine := { after.engine with nextWalSeq := after.engine.nextWalSeq + 1 } })
    (err : ∀ error after, writing after → post.err error after)
    (crash : ∀ after, Dies may → writing after → post.crash after)
    (installs : ∀ info before, writing before → wp may (installFlushedSst (tableMeta world.engine.nextSstSeq info))
      ⟨fun _ after => post.ok before.engine.nextWalSeq after, post.err, post.crash⟩
      ⟨before.disk.openWal before.engine.nextWalSeq,
        { before.engine with nextWalSeq := before.engine.nextWalSeq + 1 }⟩) :
    wp may (publishMemtable format) post world := by
  refine wp_getState_bind (wp_bind (wp_of_run (fun script => mintSstId_run script _) ?_))
  refine wp_bind (wp_mono (preserves_writeTable format _ _ put _ start) ?_ err
    fun after kept => crash after kept.1 kept.2)
  intro _ written holds
  refine wp_bind (wp_mono (preserves_readTable format World.disk _ written holds) ?_ err
    fun after kept => crash after kept.1 kept.2)
  intro info before holds
  refine wp_bind (wp_of_run (fun script => mintWalId_run script _) ?_)
  refine wp_call_bind ?_ (fun _ => err _ _ (rotate before holds)) (fun died => crash _ ⟨_, died⟩ (rotate before holds))
  refine wp_bind (wp_mono (installs info before holds) ?_ (fun _ _ ends => ends) (fun _ ends => ends))
  exact fun _ after ends => wp_pure ends

theorem anything_frame : Frame fun _ : World F => True :=
  ⟨fun _ _ => trivial, fun _ _ _ => trivial, fun _ _ _ _ _ _ _ => trivial⟩

/-- A flush that returns an error has not published its table: what holds while
the table is written still holds. -/
theorem wp_flush_refused {writing : World F → Prop} {world : World F} (removes : ¬ may .fsRemove .failed)
    (start : writing { world with engine := { world.engine with nextSstSeq := world.engine.nextSstSeq + 1 } })
    (put : ∀ file after, writing after →
      writing { after with disk := after.disk.putTable world.engine.nextSstSeq file })
    (rotate : ∀ after, writing after →
      writing { after with engine := { after.engine with nextWalSeq := after.engine.nextWalSeq + 1 } }) :
    wp may (flush format) ⟨fun _ _ => True, fun _ => writing, fun _ => Dies may⟩ world := by
  refine wp_getState_bind ?_
  split
  · exact wp_pure trivial
  · rw [flushMemtable_eq]
    let minted := fun after : World F => writing after ∧ world.engine.nextSstSeq < after.engine.nextSstSeq
    have entry : minted { world with engine := { world.engine with nextSstSeq := world.engine.nextSstSeq + 1 } } :=
      ⟨start, Nat.lt_succ_self _⟩
    refine wp_bind (wp_bind (wp_publishMemtable_any format entry
      (fun file after kept => ⟨put file after kept.1, kept.2⟩) (fun after kept => ⟨rotate after kept.1, kept.2⟩)
      (fun _ _ kept => kept.1) (fun _ died _ => died) ?_))
    intro info before kept
    have added : ∀ row ∈ [tableMeta world.engine.nextSstSeq info], row.id < before.engine.nextSstSeq := by
      intro row member
      rw [List.mem_singleton.mp member]
      exact kept.2
    -- from the publication on nothing returns an error
    refine wp_mono (anything_frame.applyEdit ⟨[], _⟩ trivial added) ?_ (fun _ _ refused => absurd rfl refused.1)
      (fun _ died => died.1)
    intro _ _ _
    refine wp_bind (wp_of_run (fun script => onEngine_run _ script _) ?_)
    refine wp_call ?_ (fun failed => absurd failed removes) (fun died => ⟨_, died⟩)
    refine wp_bind (wp_attempt (wp_mono (anything_frame.doCompactWork format _ trivial) ?_ ?_ (fun _ died => died.1)))
    · exact fun _ _ _ => wp_pure trivial
    · exact fun _ _ _ => wp_pure trivial

end

end Engine

end Enigma
