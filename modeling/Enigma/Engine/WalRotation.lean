import Enigma.Engine.Lifetimes

/-! The log across flushes. An engine has one segment, its own; its counter says
the number of the segment it has, until the first flush, and from then on the
number of the next one. So the first flush of an engine goes on with the segment
it has. -/

namespace Enigma

namespace Engine

open Prog

section

variable {F : Type}

/-- All of a state that has to do with the log. -/
def walPart (world : World F) : SortedMap Nat (List WalRecord) × Nat × Nat :=
  (world.disk.wal, world.engine.walWriter, world.engine.nextWalSeq)

theorem walPart_kept (format : TableFormat F) (part : SortedMap Nat (List WalRecord) × Nat × Nat) :
    TableInvariant format (fun world => walPart world = part) fun _ => True where
  mint := fun _ same => same
  publish := fun _ _ same => same
  unlink := fun _ _ same => same
  write := fun _ _ _ _ same _ => same
  merge := fun _ _ _ _ _ => trivial

theorem openWal_congr {disk other : Disk F} (same : disk.wal = other.wal) (seq : Nat) :
    (disk.openWal seq).wal = (other.openWal seq).wal := by
  apply SortedMap.ext_find?
  intro probe
  rw [Disk.openWal_find?, Disk.openWal_find?, same]

/-- What a flush makes of the log. -/
def flushedPart (world : World F) : SortedMap Nat (List WalRecord) × Nat × Nat :=
  (((world.disk.openWal world.engine.nextWalSeq).dropWal (world.engine.nextWalSeq - 1)).wal,
    world.engine.nextWalSeq, world.engine.nextWalSeq + 1)

theorem wp_flush_walPart (format : TableFormat F) {world : World F} (filled : world.engine.activeMemtable.count ≠ 0) :
    wp Faultless (flush format) ⟨fun _ after => walPart after = flushedPart world,
      fun _ after => walPart after = walPart world, fun after => walPart after = flushedPart world⟩ world := by
  refine wp_getState_bind ?_
  simp only [filled, ↓reduceIte]
  refine wp_bind (wp_faultless_flushMemtable (walPart_kept format (walPart world))
    (walPart_kept format ((world.disk.openWal world.engine.nextWalSeq).wal, world.engine.walWriter,
      world.engine.nextWalSeq + 1)) rfl trivial ?_ (fun _ _ same => same) ?_)
  · intro before same
    simp only [walPart, Prod.mk.injEq] at same ⊢
    obtain ⟨wal, writer, next⟩ := same
    rw [next]
    exact ⟨openWal_congr wal _, writer, rfl⟩
  · intro before after same opened
    simp only [walPart, Prod.mk.injEq] at same opened
    have rotated : walPart (⟨after.disk.dropWal (before.engine.nextWalSeq - 1), { after.engine with
        walWriter := before.engine.nextWalSeq, activeMemtable := .new after.engine.memtableSize }⟩ : World F) =
          flushedPart world := by
      simp only [walPart, flushedPart, Disk.dropWal, same.2.2, opened.1, opened.2.2]
    refine wp_bind (wp_attempt (wp_mono (wp_faultless_doCompactWork (walPart_kept format _) rotated) ?_ ?_ ?_))
    · exact fun _ _ holds => wp_pure holds
    · exact fun _ _ holds => wp_pure holds
    · exact fun _ holds => holds

/-- A flush, whether there is something to flush or not. -/
theorem wp_flush_log {format : TableFormat F} {world : World F} {post : Post Error (World F) Unit}
    (stays : post.ok () world) (flushed : ∀ after, walPart after = flushedPart world → post.ok () after ∧ post.crash after)
    (err : ∀ error after, walPart after = walPart world → post.err error after) : wp Faultless (flush format) post world := by
  by_cases empty : world.engine.activeMemtable.count = 0
  · refine wp_getState_bind ?_
    simp only [empty, ↓reduceIte]
    exact wp_pure stays
  · exact wp_mono (wp_flush_walPart format empty) (fun _ after same => (flushed after same).1) err
      fun after same => (flushed after same).2

/-- One segment, which is the engine's own, and a counter at it or right behind. -/
structure OneSegment (world : World F) : Prop where
  numbers : ∀ id, id ∈ world.disk.wal.keys ↔ id = world.engine.walWriter
  positive : 0 < world.engine.walWriter
  lower : world.engine.walWriter ≤ world.engine.nextWalSeq
  upper : world.engine.nextWalSeq ≤ world.engine.walWriter + 1

theorem OneSegment.congr {world after : World F} (one : OneSegment world) (same : walPart after = walPart world) :
    OneSegment after := by
  simp only [walPart, Prod.mk.injEq] at same
  obtain ⟨wal, writer, next⟩ := same
  exact ⟨by rw [wal, writer]; exact one.numbers, writer ▸ one.positive, by rw [writer, next]; exact one.lower,
    by rw [writer, next]; exact one.upper⟩

theorem OneSegment.flushed {world after : World F} (one : OneSegment world) (same : walPart after = flushedPart world) :
    OneSegment after := by
  simp only [walPart, flushedPart, Prod.mk.injEq] at same
  obtain ⟨wal, writer, next⟩ := same
  have positive := one.positive
  have lower := one.lower
  have upper := one.upper
  refine ⟨?_, by omega, by omega, by omega⟩
  intro id
  have opened : id ∈ (world.disk.openWal world.engine.nextWalSeq).wal.keys ↔
      id = world.engine.nextWalSeq ∨ id = world.engine.walWriter := by
    rw [SortedMap.mem_keys_iff, Disk.openWal_find?, ← one.numbers, SortedMap.mem_keys_iff]
    by_cases new : id = world.engine.nextWalSeq <;> simp [new]
  rw [wal, writer]
  change id ∈ ((world.disk.openWal world.engine.nextWalSeq).wal.erase (world.engine.nextWalSeq - 1)).keys ↔ _
  rw [SortedMap.mem_keys_erase, opened]
  omega

theorem wp_flush_oneSegment {format : TableFormat F} {world : World F} (one : OneSegment world) :
    wp Faultless (flush format) (Post.always OneSegment) world :=
  wp_flush_log one (fun _ same => ⟨one.flushed same, one.flushed same⟩) fun _ _ same => one.congr same

theorem OneSegment.written {world : World F} (one : OneSegment world) (key : Key) (value : Option Bytes) (timestamp : Nat) :
    OneSegment (written world key value timestamp) := by
  refine ⟨?_, one.positive, one.lower, one.upper⟩
  intro id
  obtain ⟨records, found⟩ := SortedMap.mem_keys_iff.mp ((one.numbers world.engine.walWriter).mpr rfl)
  simp only [Engine.written, Disk.appendWal, found, SortedMap.mem_keys_insert]
  rw [one.numbers, or_self]

theorem oneSegment_kept (format : TableFormat F) : TableInvariant format OneSegment fun _ => True where
  mint := fun _ one => one.congr rfl
  publish := fun _ _ one => one.congr rfl
  unlink := fun _ _ one => one.congr rfl
  write := fun _ _ _ _ one _ => one.congr rfl
  merge := fun _ _ _ _ _ => trivial

/-- The log that recovery works on: the engine's own segment and the old ones. -/
structure Recovering (segments : List (Nat × List WalRecord)) (seq : Nat) (world : World F) : Prop where
  numbers : ∀ id, id ∈ world.disk.wal.keys → id = seq ∨ id ∈ segments.map Prod.fst
  own : seq ∈ world.disk.wal.keys
  writer : world.engine.walWriter = seq
  lower : seq ≤ world.engine.nextWalSeq
  upper : world.engine.nextWalSeq ≤ seq + 1

theorem Recovering.cleaned {segments : List (Nat × List WalRecord)} {seq highest : Nat} {world : World F}
    (recovering : Recovering segments seq world) (positive : 0 < seq) (older : ∀ segment ∈ segments, segment.1 < seq) :
    OneSegment (cleaned segments highest world) where
  numbers := by
    intro id
    have younger : seq ∉ segments.map Prod.fst := by
      intro member
      obtain ⟨segment, held, same⟩ := List.mem_map.mp member
      exact absurd (older segment held) (by omega)
    rw [mem_cleaned_wal]
    change _ ↔ id = world.engine.walWriter
    rw [recovering.writer]
    constructor
    · rintro ⟨stored, kept⟩
      exact (recovering.numbers id stored).resolve_right kept
    · rintro rfl
      exact ⟨recovering.own, younger⟩
  positive := recovering.writer ▸ positive
  lower := recovering.writer ▸ recovering.lower
  upper := recovering.writer ▸ recovering.upper

theorem Recovering.flushed {segments : List (Nat × List WalRecord)} {seq : Nat} {world after : World F}
    (recovering : Recovering segments seq world) (positive : 0 < seq) (next : world.engine.nextWalSeq = seq)
    (same : walPart after = flushedPart world) : Recovering segments seq after := by
  simp only [walPart, flushedPart, Prod.mk.injEq] at same
  obtain ⟨wal, writer, counter⟩ := same
  have kept : ∀ id, id ∈ after.disk.wal.keys ↔ id ≠ seq - 1 ∧ id ∈ world.disk.wal.keys := by
    intro id
    rw [wal, next]
    change id ∈ ((world.disk.openWal seq).wal.erase (seq - 1)).keys ↔ _
    rw [SortedMap.mem_keys_erase, SortedMap.mem_keys_iff, Disk.openWal_find?]
    by_cases own : id = seq
    · simp [own, recovering.own]
    · simp [own, SortedMap.mem_keys_iff]
  refine ⟨fun id stored => recovering.numbers id ((kept id).mp stored).2, (kept seq).mpr ⟨by omega, recovering.own⟩,
    by omega, by omega, by omega⟩

theorem mem_openWal {disk : Disk F} {seq id : Nat} :
    id ∈ (disk.openWal seq).wal.keys ↔ id = seq ∨ id ∈ disk.wal.keys := by
  rw [SortedMap.mem_keys_iff, Disk.openWal_find?, SortedMap.mem_keys_iff]
  by_cases same : id = seq <;> simp [same]

theorem recovering_boot (config : Config) (disk : Disk F) (metas : List SSTableMeta) :
    Recovering (oldWalFiles (bootWorld config disk metas)) (highestOf disk.wal.keys + 1) (bootWorld config disk metas) where
  numbers := by
    intro id stored
    have place := mem_openWal.mp stored
    refine place.imp_right fun old => ?_
    obtain ⟨records, found⟩ := SortedMap.mem_keys_iff.mp stored
    refine List.mem_map.mpr ⟨(id, records), List.mem_filter.mpr ⟨SortedMap.find?_eq_some_iff.mp found, ?_⟩, rfl⟩
    exact decide_eq_true (Nat.lt_succ_of_le (le_highestOf old))
  own := mem_openWal.mpr (.inl rfl)
  writer := rfl
  lower := le_rfl
  upper := Nat.le_succ _

theorem Recovering.congr {segments : List (Nat × List WalRecord)} {seq : Nat} {world after : World F}
    (recovering : Recovering segments seq world) (same : walPart after = walPart world) :
    Recovering segments seq after := by
  simp only [walPart, Prod.mk.injEq] at same
  obtain ⟨wal, writer, next⟩ := same
  exact ⟨by rw [wal]; exact recovering.numbers, wal ▸ recovering.own, writer.trans recovering.writer,
    next ▸ recovering.lower, next ▸ recovering.upper⟩

theorem walPart_replayed (world : World F) (records : List WalRecord) :
    walPart (replayedWorld world records) = walPart world := rfl

theorem Recovering.wp_flushRecovered {format : TableFormat F} {segments : List (Nat × List WalRecord)} {seq : Nat}
    {world : World F} (recovering : Recovering segments seq world) (positive : 0 < seq)
    (next : world.engine.nextWalSeq = seq) :
    wp Faultless (flushRecovered format)
      ⟨fun _ after => Recovering segments seq after, fun _ _ => True, fun _ => True⟩ world := by
  refine wp_getState_bind ?_
  split
  · exact wp_flush_log recovering (fun _ same => ⟨recovering.flushed positive next same, trivial⟩) fun _ _ _ => trivial
  · exact wp_pure recovering

theorem wp_open_oneSegment (format : TableFormat F) (config : Config) (disk : Disk F) :
    wp Faultless (Engine.open format config)
      ⟨fun engine after => OneSegment ⟨after, engine⟩, fun _ _ => True, fun _ => True⟩ disk := by
  refine wp_faultless_open (fun _ => trivial) ?_
  intro metas _
  have recovering := recovering_boot config disk metas
  have positive : 0 < highestOf disk.wal.keys + 1 := Nat.succ_pos _
  have older : ∀ segment ∈ oldWalFiles (bootWorld config disk metas), segment.1 < highestOf disk.wal.keys + 1 :=
    fun segment member => of_decide_eq_true (List.mem_filter.mp member).2
  refine wp_faultless_recover ?_ ?_
  · intro nothing
    rw [nothing] at recovering
    have one : OneSegment (cleaned [] 0 (bootWorld config disk metas)) := recovering.cleaned positive (by simp)
    exact one.congr rfl
  · have replaying := recovering.congr (walPart_replayed _ (foundRecords (oldWalFiles (bootWorld config disk metas))))
    refine wp_mono (replaying.wp_flushRecovered positive rfl) ?_ (fun _ _ _ => trivial) fun _ _ => trivial
    intro _ after flushed
    exact flushed.cleaned positive older

theorem lifetime_oneSegment (format : TableFormat F) (actions : List Action) {disk : Disk F} {engine : Dazzle}
    (running : lifetime format actions = ⟨disk, some engine⟩) : OneSegment ⟨disk, engine⟩ := by
  have keeps : Keeps (fun _ => True) OneSegment (lifetime format actions) :=
    lifetime_keeps trivial (fun _ _ => trivial)
      (wp_faultless_operation (oneSegment_kept format).kept (fun _ key value timestamp one => one.written key value timestamp)
        fun _ one => wp_flush_oneSegment one)
      (fun config disk _ => wp_open_oneSegment format config disk) actions
  rw [running] at keeps
  exact keeps.running engine rfl

/-- What a flush is to do with the log: the writer appends to a new segment, which
holds nothing and is the only one. -/
structure Rotated (before after : World F) : Prop where
  new : before.engine.walWriter < after.engine.walWriter
  empty : after.disk.wal.find? after.engine.walWriter = some []
  only : after.disk.wal.keys = [after.engine.walWriter]

theorem OneSegment.keys {world : World F} (one : OneSegment world) : world.disk.wal.keys = [world.engine.walWriter] := by
  have distinct : world.disk.wal.keys.Nodup := (List.pairwise_map.mpr world.disk.wal.ascending).imp ne_of_lt
  refine List.perm_singleton.mp ((List.perm_ext_iff_of_nodup distinct (List.nodup_singleton _)).mpr fun id => ?_)
  rw [one.numbers, List.mem_singleton]

theorem OneSegment.rotated_iff {world after : World F} (one : OneSegment world) (same : walPart after = flushedPart world) :
    Rotated world after ↔ world.engine.walWriter < world.engine.nextWalSeq := by
  have next := one.flushed same
  simp only [walPart, flushedPart, Prod.mk.injEq] at same
  obtain ⟨wal, writer, _⟩ := same
  constructor
  · exact fun rotated => writer ▸ rotated.new
  · intro ahead
    refine ⟨writer.symm ▸ ahead, ?_, next.keys⟩
    have missing : world.disk.wal.find? world.engine.nextWalSeq = none :=
      SortedMap.find?_eq_none_iff.mpr fun stored => absurd ((one.numbers _).mp stored) (Nat.ne_of_gt ahead)
    have other : world.engine.nextWalSeq ≠ world.engine.nextWalSeq - 1 := by omega
    rw [wal, writer, Disk.dropWal, SortedMap.find?_erase, Disk.openWal_find?]
    simp [missing, other]

theorem walPart_of_flush {format : TableFormat F} {world after : World F} {rest : Script Call}
    (filled : world.engine.activeMemtable.count ≠ 0) (flushed : (flush format).run .calm world = (.ok (), rest, after)) :
    walPart after = flushedPart world := by
  have holds := faultless_run (wp_flush_walPart format filled)
  rw [flushed] at holds
  exact holds

/-- A flush rotates the log exactly when the counter of segments is past the one
that the engine writes to. -/
theorem flush_rotates_wal (format : TableFormat F) (actions : List Action) {disk : Disk F} {engine : Dazzle}
    (running : lifetime format actions = ⟨disk, some engine⟩) (filled : engine.activeMemtable.count ≠ 0)
    {rest : Script Call} {after : World F} (flushed : (flush format).run .calm ⟨disk, engine⟩ = (.ok (), rest, after)) :
    Rotated ⟨disk, engine⟩ after ↔ engine.walWriter < engine.nextWalSeq :=
  (lifetime_oneSegment format actions running).rotated_iff (walPart_of_flush filled flushed)

def twoWrites : List Action :=
  [.open restingConfig, .operate (.put [1] [10] 0), .operate .flush, .operate (.put [1] [20] 0)]

theorem flush_rotates_wal_second : ∃ disk engine rest after, lifetime (entryFormat .plain) twoWrites = ⟨disk, some engine⟩ ∧
    (flush (entryFormat .plain)).run .calm ⟨disk, engine⟩ = (.ok (), rest, after) ∧ Rotated ⟨disk, engine⟩ after := by
  have running : lifetime (entryFormat .plain) twoWrites = ⟨_, some _⟩ := rfl
  refine ⟨_, _, _, _, running, rfl, (flush_rotates_wal (entryFormat .plain) twoWrites running ?_ rfl).mpr ?_⟩
  · decide
  · decide

/-- The first flush in a new directory goes on with the segment that holds the
write it has just made a table of. -/
theorem first_flush_keeps_segment : ∃ disk engine rest after,
    lifetime (entryFormat .plain) [.open restingConfig, .operate (.put [1] [10] 0)] = ⟨disk, some engine⟩ ∧
    engine.activeMemtable.count ≠ 0 ∧
    (flush (entryFormat .plain)).run .calm ⟨disk, engine⟩ = (.ok (), rest, after) ∧
    after.engine.walWriter = engine.walWriter ∧
    after.disk.wal.find? after.engine.walWriter = some [⟨.putRow, 0, 1, [1], [10]⟩] ∧ ¬ Rotated ⟨disk, engine⟩ after := by
  refine ⟨_, _, _, _, rfl, by decide, rfl, rfl, rfl, ?_⟩
  exact fun rotated => absurd rotated.new (by decide)

/-- The counter is past the segment that the engine writes to. -/
def Ahead (world : World F) : Prop := world.engine.walWriter < world.engine.nextWalSeq

theorem ahead_kept (format : TableFormat F) : TableInvariant format Ahead fun _ => True where
  mint := fun _ ahead => ahead
  publish := fun _ _ ahead => ahead
  unlink := fun _ _ ahead => ahead
  write := fun _ _ _ _ ahead _ => ahead
  merge := fun _ _ _ _ _ => trivial

theorem ahead_of_flushedPart {world after : World F} (same : walPart after = flushedPart world) : Ahead after := by
  simp only [walPart, flushedPart, Prod.mk.injEq] at same
  obtain ⟨_, writer, next⟩ := same
  rw [Ahead, writer, next]
  exact Nat.lt_succ_self _

theorem wp_flush_ahead {format : TableFormat F} {world : World F} (ahead : Ahead world) :
    wp Faultless (flush format) (Post.always Ahead) world := by
  refine wp_flush_log ahead (fun _ same => ⟨ahead_of_flushedPart same, ahead_of_flushedPart same⟩) ?_
  intro _ after same
  simp only [walPart, Prod.mk.injEq] at same
  change after.engine.walWriter < after.engine.nextWalSeq
  rw [same.2.1, same.2.2]
  exact ahead

/-- An engine that has flushed once rotates the log in every flush from then on. -/
theorem later_flushes_rotate (format : TableFormat F) (actions : List Action) {disk : Disk F} {engine : Dazzle}
    (running : lifetime format actions = ⟨disk, some engine⟩) (filled : engine.activeMemtable.count ≠ 0)
    {rest later : Script Call} {flushed before after : World F}
    (first : (flush format).run .calm ⟨disk, engine⟩ = (.ok (), rest, flushed)) (operations : List Operation)
    (reached : lifetime format (actions ++ .operate .flush :: operations.map .operate) = ⟨before.disk, some before.engine⟩)
    (holding : before.engine.activeMemtable.count ≠ 0) (again : (flush format).run .calm before = (.ok (), later, after)) :
    Rotated before after := by
  have kept : ∀ (operations : List Operation) (process : Process F), Keeps (fun _ => True) Ahead process →
      Keeps (fun _ => True) Ahead ((operations.map Action.operate).foldl (act format) process) := by
    intro operations
    induction operations with
    | nil => exact fun _ keeps => keeps
    | cons operation rest ih =>
      exact fun process keeps => ih _ (keeps.operate (fun _ _ => trivial) (wp_faultless_operation (ahead_kept format).kept
        (fun _ _ _ _ ahead => ahead) (fun _ ahead => wp_flush_ahead ahead) operation))
  have opened : act format (lifetime format actions) (.operate .flush) = ⟨flushed.disk, some flushed.engine⟩ := by
    rw [running]
    simp only [act, operate, Operation.prog, first]
  have start : Keeps (fun _ => True) Ahead (act format (lifetime format actions) (.operate .flush)) := by
    rw [opened]
    refine ⟨trivial, ?_⟩
    intro engine same
    cases same
    exact ahead_of_flushedPart (walPart_of_flush filled first)
  have ahead := kept operations _ start
  have history : (operations.map Action.operate).foldl (act format) (act format (lifetime format actions) (.operate .flush)) =
      ⟨before.disk, some before.engine⟩ := by
    rw [← reached, lifetime, lifetime, List.foldl_append, List.foldl_cons]
  rw [history] at ahead
  exact ((lifetime_oneSegment format _ reached).rotated_iff (walPart_of_flush holding again)).mpr (ahead.running _ rfl)

end

end Engine

end Enigma
