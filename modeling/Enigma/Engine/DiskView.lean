import Enigma.Engine.LiveTables

/-! What a data directory says about a key: the last log record, else the newest
table. The engine keeps at most one segment with records in it, so removing a
segment either loses no record or the whole log. -/

namespace Enigma

def WalRecord.entry (record : WalRecord) : Entry :=
  if record.opType = .deleteRow then (record.key, ⟨[], true, record.sequence⟩)
  else (record.key, ⟨record.value, false, record.sequence⟩)

theorem WalRecord.entry_key (record : WalRecord) : record.entry.1 = record.key := by
  unfold WalRecord.entry
  split <;> rfl

namespace Engine

def diskLayers (disk : Disk EntryFile) : Layers Key InternalValue := disk.sst.mapValues fun _ file => file.entries

/-- All records, segment by segment in the order of their numbers. -/
def walRecords {F : Type} (disk : Disk F) : List WalRecord := disk.wal.bindings.flatMap Prod.snd

/-- The last log record of a key, as the value it stands for. -/
def loggedValue {F : Type} (disk : Disk F) (key : Key) : Option InternalValue :=
  Assoc.last? ((walRecords disk).map WalRecord.entry) key

/-- What a recovery of this directory makes of a key. -/
def diskView (disk : Disk EntryFile) (key : Key) : Option InternalValue :=
  (loggedValue disk key).or ((diskLayers disk).lookup key)

/-- Every segment but one is empty. -/
def SoleLog {F : Type} (disk : Disk F) (seq : Nat) : Prop :=
  ∀ id records, disk.wal.find? id = some records → id ≠ seq → records = []

def logAt {F : Type} (disk : Disk F) (seq : Nat) : List WalRecord := (disk.wal.find? seq).getD []

theorem diskLayers_find? (disk : Disk EntryFile) (id : SSTableId) :
    (diskLayers disk).find? id = (disk.sst.find? id).map EntryFile.entries := by
  simp [diskLayers]

theorem diskLayers_putTable (disk : Disk EntryFile) (id : SSTableId) (file : EntryFile) :
    diskLayers (disk.putTable id file) = (diskLayers disk).insert id file.entries := by
  apply SortedMap.ext_find?
  intro probe
  rw [diskLayers_find?, SortedMap.find?_insert, diskLayers_find?, Disk.putTable_sst, SortedMap.find?_insert]
  split <;> rfl

theorem diskLayers_below {disk : Disk EntryFile} {id : SSTableId} (above : ∀ other ∈ disk.sst.keys, other < id) :
    ∀ other ∈ (diskLayers disk).keys, other < id := by
  intro other member
  obtain ⟨layer, found⟩ := SortedMap.mem_keys_iff.mp member
  rw [diskLayers_find?] at found
  obtain ⟨file, present, _⟩ := Option.map_eq_some_iff.mp found
  exact above other (SortedMap.mem_keys_iff.mpr ⟨file, present⟩)

section Log

variable {F : Type} {disk : Disk F} {seq : Nat}

/-- The log of a directory is that of its one segment with records. -/
theorem SoleLog.walRecords_eq (sole : SoleLog disk seq) : walRecords disk = logAt disk seq := by
  obtain ⟨sst, bindings, ascending⟩ := disk
  simp only [SoleLog, SortedMap.find?, walRecords, logAt] at sole ⊢
  induction bindings with
  | nil => rfl
  | cons segment rest ih =>
    obtain ⟨id, records⟩ := segment
    obtain ⟨below, tail⟩ := List.pairwise_cons.mp ascending
    have later : rest.flatMap Prod.snd = (Assoc.find? rest seq).getD [] := by
      refine ih tail ?_
      intro other held found different
      have larger : id ≠ other := ne_of_lt (below _ (Assoc.mem_of_find? found))
      exact sole other held (by simpa [Assoc.find?, larger] using found) different
    by_cases same : id = seq
    · subst same
      have none : Assoc.find? rest id = none := by
        apply Assoc.find?_eq_none_iff.mpr
        intro binding member
        exact ne_of_gt (below binding member)
      simp [Assoc.find?, later, none]
    · have empty := sole id records (by simp [Assoc.find?]) same
      simp [Assoc.find?, same, later, empty]

theorem SoleLog.openWal (sole : SoleLog disk seq) (fresh : Nat) : SoleLog (disk.openWal fresh) seq := by
  intro id records found different
  rw [Disk.openWal_find?] at found
  split at found
  · rename_i same
    subst same
    cases held : disk.wal.find? id with
    | none => simpa [held] using found
    | some old => simpa [held, sole id old held different] using found
  · exact sole id records found different

theorem logAt_openWal (fresh : Nat) : logAt (disk.openWal fresh) seq = logAt disk seq := by
  rw [logAt, Disk.openWal_find?, logAt]
  split
  · rename_i same
    simp [same]
  · rfl

theorem SoleLog.dropWal (sole : SoleLog disk seq) (old : Nat) : SoleLog (disk.dropWal old) seq := by
  intro id records found different
  simp only [Disk.dropWal, SortedMap.find?_erase] at found
  split at found
  · cases found
  · exact sole id records found different

theorem logAt_dropWal (old : Nat) :
    logAt (disk.dropWal old) seq = if old = seq then [] else logAt disk seq := by
  unfold logAt Disk.dropWal
  by_cases same : seq = old
  · simp [same]
  · simp [same, Ne.symm same]

theorem SoleLog.appendWal (sole : SoleLog disk seq) (record : WalRecord) : SoleLog (disk.appendWal seq record) seq := by
  intro id records found different
  unfold Disk.appendWal at found
  split at found
  · simp only [SortedMap.find?_insert, different, ↓reduceIte] at found
    exact sole id records found different
  · exact sole id records found different

theorem logAt_appendWal (record : WalRecord) (present : (disk.wal.find? seq).isSome) :
    logAt (disk.appendWal seq record) seq = logAt disk seq ++ [record] := by
  obtain ⟨records, found⟩ := Option.isSome_iff_exists.mp present
  simp [logAt, Disk.appendWal, found]

theorem loggedValue_of_sole (sole : SoleLog disk seq) (key : Key) :
    loggedValue disk key = Assoc.last? ((logAt disk seq).map WalRecord.entry) key := by
  rw [loggedValue, sole.walRecords_eq]

theorem loggedValue_appendWal (sole : SoleLog disk seq) (record : WalRecord) (present : (disk.wal.find? seq).isSome)
    (key : Key) : loggedValue (disk.appendWal seq record) key =
      if key = record.key then some record.entry.2 else loggedValue disk key := by
  have shape : record.entry = (record.key, record.entry.2) := Prod.ext record.entry_key rfl
  rw [loggedValue_of_sole (sole.appendWal record), loggedValue_of_sole sole, logAt_appendWal record present,
    List.map_append, List.map_singleton, shape, Assoc.last?_concat]
  split <;> simp

end Log

variable {disk : Disk EntryFile} {seq : Nat}

theorem diskView_of_sole (sole : SoleLog disk seq) (key : Key) : diskView disk key =
    (Assoc.last? ((logAt disk seq).map WalRecord.entry) key).or ((diskLayers disk).lookup key) := by
  rw [diskView, loggedValue_of_sole sole]

theorem diskView_openWal (sole : SoleLog disk seq) (fresh : Nat) (key : Key) :
    diskView (disk.openWal fresh) key = diskView disk key := by
  rw [diskView_of_sole (sole.openWal fresh), diskView_of_sole sole, logAt_openWal]
  simp [diskLayers]

/-- Removing a segment keeps the view of a key, or leaves what the tables say. -/
theorem diskView_dropWal (sole : SoleLog disk seq) (old : Nat) (key : Key) :
    diskView (disk.dropWal old) key = diskView disk key ∨
      diskView (disk.dropWal old) key = (diskLayers disk).lookup key := by
  rw [diskView_of_sole (sole.dropWal old), diskView_of_sole sole, logAt_dropWal]
  split
  · exact .inr rfl
  · exact .inl rfl

theorem diskView_appendWal (sole : SoleLog disk seq) (record : WalRecord) (present : (disk.wal.find? seq).isSome)
    (key : Key) : diskView (disk.appendWal seq record) key =
      if key = record.key then some record.entry.2 else diskView disk key := by
  have tables : diskLayers (disk.appendWal seq record) = diskLayers disk := by simp [diskLayers]
  rw [diskView, loggedValue_appendWal sole record present, tables, diskView]
  split <;> simp

/-- A new top table answers for the keys it holds and no record overrides. -/
theorem diskView_putTable {id : SSTableId} (above : ∀ other ∈ disk.sst.keys, other < id) (file : EntryFile) (key : Key) :
    diskView (disk.putTable id file) key = diskView disk key ∨
      ∃ value, Assoc.find? file.entries key = some value ∧
        diskView (disk.putTable id file) key = some value := by
  simp only [diskView, diskLayers_putTable]
  change (loggedValue disk key).or _ = _ ∨ ∃ value, _ ∧ (loggedValue disk key).or _ = _
  rw [Layers.lookup_insert_above _ (diskLayers_below above)]
  cases loggedValue disk key with
  | some value => exact .inl rfl
  | none =>
    cases held : Assoc.find? file.entries key with
    | none => exact .inl rfl
    | some value => exact .inr ⟨value, rfl, rfl⟩

end Engine

end Enigma
