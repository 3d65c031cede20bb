import Enigma.Engine.AnyFaults
import Enigma.Engine.TableCache

/-! The table cache only saves I/O. Whatever happens at the same time, a lookup through the
cache answers as the files do that its tables were written as. -/

namespace Enigma

namespace TableCache

open Cache Interleaving

def ReadsOf (written : Disk Bytes) (key : Key) (reader : SSTableReader) : Prop :=
  ∀ id : UInt64, key = encodeKey id →
    ∃ file, written.sst.find? id.toNat = some file ∧ SSTableReader.create file = .ok reader

def Phase.handle? : Phase → Option Handle
  | .holding _ handle _ => some handle
  | _ => none

/-- The tables that a lookup has not come to yet decide its answer. -/
structure Pending (sizing : BloomFilter.Sizing) (state : State) (key : Key) (all rest : List UInt64) : Prop where
  written : ∀ id ∈ all, id.toNat ∈ state.written.sst.keys
  inside : rest ⊆ all
  same : Engine.lookupInternal (byteFormat sizing) state.written key (all.map UInt64.toNat) =
    Engine.lookupInternal (byteFormat sizing) state.written key (rest.map UInt64.toNat)

def Purpose.Sound (sizing : BloomFilter.Sizing) (state : State) (id : UInt64) : Purpose → Prop
  | .lookup key all older => Pending sizing state key all (id :: older)
  | .keep => True

def PhaseSound (sizing : BloomFilter.Sizing) (state : State) : Phase → Prop
  | .asking id purpose | .missed id purpose | .holding id _ purpose => purpose.Sound sizing state id
  | .opened id reader purpose => purpose.Sound sizing state id ∧
      ∃ file, state.written.sst.find? id.toNat = some file ∧ SSTableReader.create file = .ok reader
  | .answered key all result => (∀ id ∈ all, id.toNat ∈ state.written.sst.keys) ∧
      (result = Engine.lookupInternal (byteFormat sizing) state.written key (all.map UInt64.toNat) ∨
        result = .error noSuchFile ∧ ∃ id ∈ all, state.disk.sst.find? id.toNat = none)
  | .failed id error => error = noSuchFile ∨
      ∃ file, state.written.sst.find? id.toNat = some file ∧ SSTableReader.create file = .error error
  | _ => True

/-- The handle that a call has is one for the table of the call. -/
def Keyed (calls : Nat → Phase) (cache : ShardedLRUCache SSTableReader Unit) : Prop :=
  ∀ n id handle purpose, calls n = .holding id handle purpose →
    ∀ record, (cache.shards handle.shard).handles handle.e = some record → record.key = encodeKey id

structure Borrowed (state : State) : Prop where
  tidy : Tidy (ReadsOf state.written) state.clients
  /-- Every handle that is out belongs to a call. -/
  holders : Holders Phase.handle? state.calls state.clients.held
  keyed : Keyed state.calls state.clients.cache

structure Coherent (sizing : BloomFilter.Sizing) (state : State) : Prop extends Borrowed state where
  kept : ∀ {id file}, state.disk.sst.find? id = some file → state.written.sst.find? id = some file
  phases : ∀ n, PhaseSound sizing state (state.calls n)

/-- No counter of the cache is near its end. -/
structure Bounded (state : State) : Prop where
  held : state.clients.held.length + 2 < 2 ^ 32
  cached : ∀ i, (state.clients.cache.shards i).cached.length < 2 ^ 31

variable {sizing : BloomFilter.Sizing} {charge : SSTableReader → UInt64} {state after : State}

theorem encodeKey_injective {left right : UInt64} (same : encodeKey left = encodeKey right) : left = right := by
  have numbers := congrArg ByteBuffer.decode same
  have width : 256 ^ 8 = 2 ^ 64 := by decide
  rw [encodeKey, encodeKey, encodeUint64, encodeUint64, ByteBuffer.decode_encode, ByteBuffer.decode_encode, width,
    Nat.mod_eq_of_lt left.toNat_lt, Nat.mod_eq_of_lt right.toNat_lt] at numbers
  exact UInt64.toNat_inj.mp numbers

theorem Bounded.counted (bounded : Bounded state) (request : Request SSTableReader Unit) :
    request.Counted state.clients := by
  cases request with
  | insert key value charge deleter => exact .inr (.inr (bounded.cached _))
  | lookup key =>
    intro e _ _
    have few := bounded.held
    have less : ((state.clients.heldOf (state.clients.cache.shardOf key)).count e) ≤ state.clients.held.length :=
      List.count_le_length.trans (List.length_filterMap_le _ _)
    change (state.clients.heldOf (state.clients.cache.shardOf key)).count e + 2 < 2 ^ 32
    omega
  | _ => trivial

theorem Keyed.frame {calls : Nat → Phase} {cache after : ShardedLRUCache SSTableReader Unit} (keyed : Keyed calls cache)
    (inherited : ∀ {n id handle purpose}, calls n = .holding id handle purpose → ∀ record,
      (after.shards handle.shard).handles handle.e = some record →
        ∃ old, (cache.shards handle.shard).handles handle.e = some old ∧ old.payload = record.payload) :
    Keyed calls after := by
  intro n id handle purpose holding record present
  obtain ⟨old, found, payload⟩ := inherited holding record present
  simp only [LRUHandle.payload, Prod.mk.injEq] at payload
  rw [← payload.2.2.2.1]
  exact keyed n id handle purpose holding old found

theorem Keyed.update {calls : Nat → Phase} {cache after : ShardedLRUCache SSTableReader Unit} {n : Nat} {phase : Phase}
    (keyed : Keyed calls cache)
    (inherited : ∀ {other id handle purpose}, calls other = .holding id handle purpose → ∀ record,
      (after.shards handle.shard).handles handle.e = some record →
        ∃ old, (cache.shards handle.shard).handles handle.e = some old ∧ old.payload = record.payload)
    (own : ∀ {id handle purpose}, phase = .holding id handle purpose →
      ∀ record, (after.shards handle.shard).handles handle.e = some record → record.key = encodeKey id) :
    Keyed (Function.update calls n phase) after := by
  intro other id handle purpose holding record present
  rw [Function.update_apply] at holding
  split at holding
  · exact own holding record present
  · exact keyed.frame inherited other id handle purpose holding record present

/-- A step that leaves the cache alone, of a call without a handle before and after. -/
theorem Borrowed.enter (borrowed : Borrowed state) {n : Nat} {phase : Phase} (was : (state.calls n).handle? = none)
    (later : phase.handle? = none) : Borrowed (state.enter n phase) where
  tidy := borrowed.tidy
  holders := borrowed.holders.quiet was later
  keyed := by
    refine borrowed.keyed.update (fun _ record present => ⟨record, present, rfl⟩) ?_
    rintro id handle purpose rfl
    cases later

theorem next_handle? (key : Key) (all rest : List UInt64) : (next key all rest).handle? = none := by
  cases rest <;> rfl

theorem fail_handle? (id : UInt64) (error : Error) (purpose : Purpose) : (fail id error purpose).handle? = none := by
  cases purpose <;> rfl

theorem answer_handle? (key : Key) (all older : List UInt64) (result : Except Error (Option InternalValue)) :
    (answer key all older result).handle? = none := by
  rcases result with error | (_ | value)
  · rfl
  · exact next_handle? key all older
  · rfl

/-- A call gives its handle back. -/
theorem Borrowed.release (borrowed : Borrowed state) {n : Nat} {handle : Handle} {phase : Phase}
    {clients : Clients SSTableReader Unit} (was : (state.calls n).handle? = some handle) (later : phase.handle? = none)
    (released : state.clients.request (.release handle) = some clients) :
    Borrowed ({ state with clients }.enter n phase) := by
  obtain ⟨after, computed, tidy⟩ := borrowed.tidy.release (borrowed.holders.mem was)
  cases computed.symm.trans released
  obtain ⟨cache, releasing, same⟩ := Option.bind_eq_some_iff.mp released
  cases same
  refine ⟨tidy, borrowed.holders.give was later, ?_⟩
  refine borrowed.keyed.update (fun _ record present => Tidy.inherited_release releasing present) ?_
  rintro id other purpose rfl
  cases later

theorem ReadsOf.publish {written : Disk Bytes} {key : Key} {reader : SSTableReader} (reads : ReadsOf written key reader)
    {id : Nat} (fresh : written.sst.find? id = none) (file : Bytes) : ReadsOf (written.putTable id file) key reader := by
  intro other same
  obtain ⟨old, found, created⟩ := reads other same
  have different : other.toNat ≠ id := by
    rintro rfl
    rw [fresh] at found
    cases found
  exact ⟨old, by rw [Disk.putTable_sst, SortedMap.find?_insert, if_neg different, found], created⟩

theorem Uses.borrowed (uses : Uses charge state after) (coherent : Coherent sizing state) (bounded : Bounded state) :
    Borrowed after := by
  have borrowed := coherent.toBorrowed
  cases uses with
  | evict id clients erased =>
    obtain ⟨after, computed, tidy⟩ := borrowed.tidy.erase (encodeKey id)
    cases computed.symm.trans erased
    obtain ⟨cache, erasing, same⟩ := Option.bind_eq_some_iff.mp erased
    cases same
    exact ⟨tidy, borrowed.holders, borrowed.keyed.frame fun _ record present => Tidy.inherited_erase erasing present⟩
  | lookup n key ids was written => exact borrowed.enter (by rw [was]; rfl) (next_handle? ..)
  | keep n id was => exact borrowed.enter (by rw [was]; rfl) rfl
  | absent n id purpose was gone => exact borrowed.enter (by rw [was]; rfl) (fail_handle? ..)
  | refuse n id purpose file error was there refused => exact borrowed.enter (by rw [was]; rfl) (fail_handle? ..)
  | «open» n id purpose file reader was there created => exact borrowed.enter (by rw [was]; rfl) rfl
  | hit n id purpose cache handle was found =>
    obtain ⟨after, computed, tidy⟩ := borrowed.tidy.lookup (bounded.counted (.lookup (encodeKey id)))
    cases computed.symm.trans (Clients.request_of_lookup found)
    refine ⟨tidy, borrowed.holders.take (by rw [was]; rfl) rfl, ?_⟩
    refine borrowed.keyed.update (fun _ record present => Tidy.inherited_lookup found present) ?_
    rintro _ _ _ ⟨⟩ record present
    obtain ⟨old, earlier, payload⟩ := Tidy.inherited_lookup found present
    obtain ⟨_, result, looked, stored⟩ := borrowed.tidy.found (bounded.counted (.lookup (encodeKey id)))
    cases looked.symm.trans found
    obtain ⟨record, listed, named⟩ := Option.map_eq_some_iff.mp ((stored handle).mp rfl).2
    cases listed.symm.trans earlier
    simp only [LRUHandle.payload, Prod.mk.injEq] at payload
    rw [← payload.2.2.2.1, named]
  | miss n id purpose cache was found =>
    obtain ⟨after, computed, tidy⟩ := borrowed.tidy.lookup (bounded.counted (.lookup (encodeKey id)))
    cases computed.symm.trans (Clients.request_of_lookup found)
    refine ⟨tidy, borrowed.holders.quiet (by rw [was]; rfl) rfl, ?_⟩
    refine borrowed.keyed.update (fun _ record present => Tidy.inherited_lookup found present) ?_
    rintro _ _ _ ⟨⟩
  | insert n id reader purpose cache handle was inserted =>
    have fitting : ReadsOf state.written (encodeKey id) reader := by
      intro other same
      have phase := coherent.phases n
      rw [was] at phase
      rw [← encodeKey_injective same]
      exact phase.2
    obtain ⟨after, computed, tidy⟩ := borrowed.tidy.insert fitting (bounded.counted (.insert _ _ (charge reader) ()))
    cases computed.symm.trans (Clients.request_of_insert inserted)
    refine ⟨tidy, borrowed.holders.take (by rw [was]; rfl) rfl, ?_⟩
    refine borrowed.keyed.update ?_ ?_
    · intro other otherId held otherPurpose holding record present
      have out : held ∈ state.clients.held := borrowed.holders.mem (n := other) (by rw [holding]; rfl)
      refine Tidy.inherited_insert inserted present ?_
      rintro rfl
      exact borrowed.tidy.insert_fresh inserted out
    · rintro _ _ _ ⟨⟩ record present
      exact Tidy.insert_key inserted present
  | use n id handle key all older reader clients was value released =>
    exact borrowed.release (by rw [was]; rfl) (answer_handle? ..) released
  | drop n id handle clients was released => exact borrowed.release (by rw [was]; rfl) rfl released

/-- The answer of one table, or that of the older ones if it has none. -/
def orOlder (older : Except Error (Option InternalValue)) :
    Except Error (Option InternalValue) → Except Error (Option InternalValue)
  | .error error => .error error
  | .ok (some value) => .ok (some value)
  | .ok none => older

theorem lookupInternal_written {written : Disk Bytes} {id : Nat} {file : Bytes} {reader : SSTableReader}
    (there : written.sst.find? id = some file) (created : SSTableReader.create file = .ok reader) (key : Key)
    (older : List SSTableId) : Engine.lookupInternal (byteFormat sizing) written key (id :: older) =
      orOlder (Engine.lookupInternal (byteFormat sizing) written key older) (reader.get key) := by
  have accepted : ∃ info, (byteFormat sizing).create file = .ok info := ⟨_, by simp only [byteFormat, created]; rfl⟩
  obtain ⟨info, opened⟩ := accepted
  have got : (byteFormat sizing).get file key = reader.get key := by
    simp only [byteFormat, created]
    rfl
  rw [Engine.lookupInternal]
  simp only [there, opened, got]
  rcases reader.get key with error | (_ | value) <;> rfl

theorem lookupInternal_refused {written : Disk Bytes} {id : Nat} {file : Bytes} {error : Error}
    (there : written.sst.find? id = some file) (refused : SSTableReader.create file = .error error) (key : Key)
    (older : List SSTableId) : Engine.lookupInternal (byteFormat sizing) written key (id :: older) = .error error := by
  have unaccepted : (byteFormat sizing).create file = .error error := by
    simp only [byteFormat, refused]
    rfl
  rw [Engine.lookupInternal]
  simp only [there, unaccepted]

section Phases

theorem Pending.next {key : Key} {all rest : List UInt64} (pending : Pending sizing state key all rest) :
    PhaseSound sizing state (next key all rest) := by
  cases rest with
  | nil => exact ⟨pending.written, .inl pending.same.symm⟩
  | cons id older => exact pending

theorem Pending.older {key : Key} {all older : List UInt64} {id : UInt64} {file : Bytes} {reader : SSTableReader}
    (pending : Pending sizing state key all (id :: older)) (there : state.written.sst.find? id.toNat = some file)
    (created : SSTableReader.create file = .ok reader) :
    PhaseSound sizing state (answer key all older (reader.get key)) := by
  have same := pending.same
  rw [List.map_cons, lookupInternal_written there created] at same
  rcases got : reader.get key with error | (_ | value)
  · rw [got] at same
    exact ⟨pending.written, .inl same.symm⟩
  · rw [got] at same
    exact Pending.next ⟨pending.written, fun other member => pending.inside (List.mem_cons_of_mem _ member), same⟩
  · rw [got] at same
    exact ⟨pending.written, .inl same.symm⟩

theorem PhaseSound.absent {id : UInt64} {purpose : Purpose} (sound : purpose.Sound sizing state id)
    (gone : state.disk.sst.find? id.toNat = none) : PhaseSound sizing state (fail id noSuchFile purpose) := by
  cases purpose with
  | lookup key all older => exact ⟨sound.written, .inr ⟨rfl, id, sound.inside List.mem_cons_self, gone⟩⟩
  | keep => exact .inl rfl

theorem PhaseSound.refuse {id : UInt64} {purpose : Purpose} {file : Bytes} {error : Error}
    (sound : purpose.Sound sizing state id) (there : state.written.sst.find? id.toNat = some file)
    (refused : SSTableReader.create file = .error error) : PhaseSound sizing state (fail id error purpose) := by
  cases purpose with
  | lookup key all older =>
    have same := sound.same
    rw [List.map_cons, lookupInternal_refused there refused] at same
    exact ⟨sound.written, .inl same.symm⟩
  | keep => exact .inr ⟨file, there, refused⟩

/-- What has been found out about tables holds whatever files come and go. -/
theorem PhaseSound.files {phase : Phase} (sound : PhaseSound sizing state phase)
    (grows : ∀ {id file}, state.written.sst.find? id = some file → after.written.sst.find? id = some file)
    (gone : ∀ {id}, id ∈ state.written.sst.keys → state.disk.sst.find? id = none → after.disk.sst.find? id = none) :
    PhaseSound sizing after phase := by
  have keys : ∀ {all : List UInt64}, (∀ id ∈ all, id.toNat ∈ state.written.sst.keys) →
      ∀ id ∈ all, id.toNat ∈ after.written.sst.keys := by
    intro all listed id member
    obtain ⟨file, found⟩ := SortedMap.mem_keys_iff.mp (listed id member)
    exact SortedMap.mem_keys_iff.mpr ⟨file, grows found⟩
  have lookups : ∀ (key : Key) {all : List UInt64}, (∀ id ∈ all, id.toNat ∈ state.written.sst.keys) →
      Engine.lookupInternal (byteFormat sizing) after.written key (all.map UInt64.toNat) =
        Engine.lookupInternal (byteFormat sizing) state.written key (all.map UInt64.toNat) := by
    intro key all listed
    refine Engine.lookupInternal_congr (fun number member => ?_) key
    obtain ⟨id, inside, rfl⟩ := List.mem_map.mp member
    obtain ⟨file, found⟩ := SortedMap.mem_keys_iff.mp (listed id inside)
    rw [found, grows found]
  have purposes : ∀ {id purpose}, Purpose.Sound sizing state id purpose → Purpose.Sound sizing after id purpose := by
    intro id purpose sound
    cases purpose with
    | lookup key all older =>
      refine ⟨keys sound.written, sound.inside, ?_⟩
      rw [lookups key sound.written, lookups key fun id member => sound.written id (sound.inside member), sound.same]
    | keep => trivial
  cases phase with
  | asking id purpose => exact purposes sound
  | missed id purpose => exact purposes sound
  | holding id handle purpose => exact purposes sound
  | opened id reader purpose =>
    obtain ⟨file, there, created⟩ := sound.2
    exact ⟨purposes sound.1, file, grows there, created⟩
  | answered key all result =>
    obtain ⟨listed, alike | ⟨failed, id, member, missing⟩⟩ := sound
    · exact ⟨keys listed, .inl (by rw [lookups key listed, alike])⟩
    · exact ⟨keys listed, .inr ⟨failed, id, member, gone (listed id member) missing⟩⟩
  | failed id error =>
    rcases sound with missing | ⟨file, there, refused⟩
    · exact .inl missing
    · exact .inr ⟨file, grows there, refused⟩
  | idle => trivial
  | dropped => trivial

end Phases

/-- A step of one call, with the files as they were. -/
theorem Coherent.enter (coherent : Coherent sizing state) (borrowed : Borrowed after) {n : Nat} {phase : Phase}
    (written : after.written = state.written) (disk : after.disk = state.disk)
    (calls : after.calls = Function.update state.calls n phase) (sound : PhaseSound sizing state phase) :
    Coherent sizing after where
  toBorrowed := borrowed
  kept := by
    rw [written, disk]
    exact coherent.kept
  phases := by
    intro other
    have phases : PhaseSound sizing state (after.calls other) := by
      rw [calls, Function.update_apply]
      split
      · exact sound
      · exact coherent.phases other
    refine phases.files ?_ ?_
    · rw [written]
      exact fun found => found
    · rw [disk]
      exact fun _ missing => missing

theorem Uses.coherent (uses : Uses charge state after) (coherent : Coherent sizing state) (bounded : Bounded state) :
    Coherent sizing after := by
  have borrowed := uses.borrowed coherent bounded
  have phases := coherent.phases
  cases uses with
  | evict id clients erased =>
    exact ⟨borrowed, coherent.kept, fun n => (phases n).files (fun there => there) fun _ missing => missing⟩
  | lookup n key ids was written =>
    exact coherent.enter borrowed rfl rfl rfl (Pending.next ⟨written, List.Subset.refl _, rfl⟩)
  | keep n id was => exact coherent.enter borrowed rfl rfl rfl trivial
  | hit n id purpose cache handle was found =>
    have sound := phases n
    rw [was] at sound
    exact coherent.enter borrowed rfl rfl rfl (show PhaseSound sizing state (.holding id handle purpose) from sound)
  | miss n id purpose cache was found =>
    have sound := phases n
    rw [was] at sound
    exact coherent.enter borrowed rfl rfl rfl sound
  | absent n id purpose was gone =>
    have sound := phases n
    rw [was] at sound
    exact coherent.enter borrowed rfl rfl rfl (PhaseSound.absent sound gone)
  | refuse n id purpose file error was there refused =>
    have sound := phases n
    rw [was] at sound
    exact coherent.enter borrowed rfl rfl rfl (PhaseSound.refuse sound (coherent.kept there) refused)
  | «open» n id purpose file reader was there created =>
    have sound := phases n
    rw [was] at sound
    exact coherent.enter borrowed rfl rfl rfl ⟨sound, file, coherent.kept there, created⟩
  | insert n id reader purpose cache handle was inserted =>
    have sound := phases n
    rw [was] at sound
    exact coherent.enter borrowed rfl rfl rfl sound.1
  | use n id handle key all older reader clients was value released =>
    have sound := phases n
    rw [was] at sound
    obtain ⟨record, present, rfl⟩ := Option.map_eq_some_iff.mp value
    have named := coherent.keyed n id handle _ was record present
    obtain ⟨file, there, created⟩ := (coherent.tidy.routed present).2.2 id named
    exact coherent.enter borrowed rfl rfl rfl (Pending.older sound there created)
  | drop n id handle clients was released => exact coherent.enter borrowed rfl rfl rfl trivial

theorem Moves.coherent (moves : Moves charge state after) (coherent : Coherent sizing state) (bounded : Bounded state) :
    Coherent sizing after := by
  have borrowed := coherent.toBorrowed
  have phases := coherent.phases
  cases moves with
  | publish id file fresh =>
    refine ⟨⟨borrowed.tidy.mono fun reads => reads.publish fresh file, borrowed.holders, borrowed.keyed⟩, ?_,
      fun n => (phases n).files ?_ ?_⟩
    · intro other found there
      rw [Disk.putTable_sst, SortedMap.find?_insert] at there ⊢
      split at there
      · rename_i here
        rw [if_pos here, there]
      · rename_i elsewhere
        rw [if_neg elsewhere, coherent.kept there]
    · intro other found there
      have different : other ≠ id.toNat := by
        rintro rfl
        rw [fresh] at there
        cases there
      rw [Disk.putTable_sst, SortedMap.find?_insert, if_neg different, there]
    · intro other listed missing
      have different : other ≠ id.toNat := by
        rintro rfl
        exact SortedMap.find?_eq_none_iff.mp fresh listed
      rw [Disk.putTable_sst, SortedMap.find?_insert, if_neg different, missing]
  | remove id =>
    refine ⟨⟨borrowed.tidy, borrowed.holders, borrowed.keyed⟩, ?_, fun n => (phases n).files (fun there => there) ?_⟩
    · intro other found there
      change (state.disk.sst.erase id.toNat).find? other = _ at there
      rw [SortedMap.find?_erase] at there
      split at there
      · cases there
      · exact coherent.kept there
    · intro other listed missing
      change (state.disk.sst.erase id.toNat).find? other = _
      rw [SortedMap.find?_erase, missing, ite_self]
  | uses used => exact used.coherent coherent bounded

/-- A call is on its way. -/
def Phase.Running : Phase → Prop
  | .asking _ _ | .missed _ _ | .opened _ _ _ | .holding _ _ _ => True
  | _ => False

/-- No call ever has to stop halfway, and none meets a handle that has been freed. -/
theorem Coherent.goes_on (coherent : Coherent sizing state) (bounded : Bounded state) {n : Nat}
    (running : (state.calls n).Running) : ∃ act after, step charge state act = some after ∧ after.calls n ≠ state.calls n := by
  have here : ∀ (changed : State) (phase : Phase), (changed.enter n phase).calls n = phase :=
    fun _ _ => Function.update_self ..
  cases was : state.calls n with
  | asking id purpose =>
    obtain ⟨cache, found, looked, _⟩ := coherent.tidy.found (bounded.counted (.lookup (encodeKey id)))
    refine ⟨.ask n, ?_⟩
    cases found with
    | none => exact ⟨_, by simp only [step, stepFiles, stepGet, was, looked]; rfl, by rw [here]; simp⟩
    | some handle => exact ⟨_, by simp only [step, stepFiles, stepGet, was, looked]; rfl, by rw [here]; simp⟩
  | missed id purpose =>
    have ends : ∀ error, fail id error purpose ≠ .missed id purpose := by
      intro error
      cases purpose <;> simp [fail]
    refine ⟨.open n, ?_⟩
    cases there : state.disk.sst.find? id.toNat with
    | none => exact ⟨_, by simp only [step, stepFiles, stepGet, was, there]; rfl, by rw [here]; exact ends _⟩
    | some file =>
      cases created : SSTableReader.create file with
      | error error =>
        exact ⟨_, by simp only [step, stepFiles, stepGet, was, there, created]; rfl, by rw [here]; exact ends _⟩
      | ok reader => exact ⟨_, by simp only [step, stepFiles, stepGet, was, there, created]; rfl, by rw [here]; simp⟩
  | opened id reader purpose =>
    have fitting : ReadsOf state.written (encodeKey id) reader := by
      intro other same
      have phase := coherent.phases n
      rw [was] at phase
      rw [← encodeKey_injective same]
      exact phase.2
    obtain ⟨clients, returned, _⟩ := coherent.tidy.insert fitting (bounded.counted (.insert _ _ (charge reader) ()))
    obtain ⟨⟨cache, handle⟩, inserted, _⟩ := Option.bind_eq_some_iff.mp returned
    exact ⟨.insert n, _, by simp only [step, stepFiles, stepGet, was, inserted]; rfl, by rw [here]; simp⟩
  | holding id handle purpose =>
    have holding := coherent.holders.mem (show (state.calls n).handle? = some handle by rw [was]; rfl)
    obtain ⟨record, present⟩ := coherent.tidy.live holding
    have value : state.clients.cache.value handle = some record.value := by
      rw [ShardedLRUCache.value, present]
      rfl
    obtain ⟨clients, released, _⟩ := coherent.tidy.release holding
    cases purpose with
    | lookup key all older =>
      refine ⟨.use n, _, by simp only [step, stepFiles, stepGet, stepUse, was, value, released]; rfl, ?_⟩
      rw [here]
      intro same
      have none := answer_handle? key all older (record.value.get key)
      rw [same] at none
      cases none
    | keep => exact ⟨.drop n, _, by simp only [step, stepFiles, stepGet, stepUse, was, released]; rfl, by rw [here]; simp⟩
  | _ =>
    rw [was] at running
    cases running

theorem new_coherent {capacity numShards : UInt64} (created : State.new capacity numShards = some state) :
    Coherent sizing state := by
  obtain ⟨clients, creating, same⟩ := Option.bind_eq_some_iff.mp created
  cases same
  refine ⟨⟨.new creating, ⟨[], List.nodup_nil, ?_, ?_⟩, ?_⟩, ?_, fun _ => trivial⟩
  · obtain ⟨cache, _, same⟩ := Option.bind_eq_some_iff.mp creating
    cases same
    exact List.Perm.refl _
  · intro n handle
    simp [Phase.handle?]
  · intro n id handle purpose holding
    cases holding
  · intro id file there
    cases there

/-- Whatever happens at the same time, files evicted and removed included: a lookup through
the cache answers as the files of its tables do, or finds one of them removed; a reader in
the hands of a call is one of the file that was written under its number; and every call can
go on. -/
theorem cached_lookups_answer_as_files (sizing : BloomFilter.Sizing) (charge : SSTableReader → UInt64)
    {capacity numShards : UInt64} {acts : List Act} {start state : State}
    (created : State.new capacity numShards = some start)
    (reached : Interleaving.run (step charge) start acts = some state)
    (bounded : ∀ earlier, earlier <+: acts → ∀ middle,
      Interleaving.run (step charge) start earlier = some middle → Bounded middle) :
    (∀ n key all result, state.calls n = .answered key all result →
        (∀ id ∈ all, id.toNat ∈ state.disk.sst.keys) →
          result = Engine.lookupInternal (byteFormat sizing) state.disk key (all.map UInt64.toNat)) ∧
      (∀ n key all result, state.calls n = .answered key all result →
        result = Engine.lookupInternal (byteFormat sizing) state.written key (all.map UInt64.toNat) ∨
          result = .error noSuchFile ∧ ∃ id ∈ all, id.toNat ∉ state.disk.sst.keys) ∧
      (∀ n id handle purpose, state.calls n = .holding id handle purpose → ∃ reader file,
        state.clients.cache.value handle = some reader ∧ state.written.sst.find? id.toNat = some file ∧
          SSTableReader.create file = .ok reader) ∧
      ∀ n, (state.calls n).Running → ∃ act after, step charge state act = some after ∧
        after.calls n ≠ state.calls n := by
  have first := bounded [] List.nil_prefix start rfl
  obtain ⟨coherent, limits⟩ := Interleaving.run_keeps_through
    (fun state => Coherent sizing state ∧ Bounded state) Bounded
    (fun kept allowed moved => ⟨(step_moves moved).coherent kept.1 kept.2, allowed⟩)
    ⟨new_coherent created, first⟩ reached bounded
  refine ⟨?_, ?_, ?_, fun n running => coherent.goes_on limits running⟩
  · intro n key all result answered there
    have sound := coherent.phases n
    rw [answered] at sound
    obtain ⟨_, same | ⟨_, id, member, missing⟩⟩ := sound
    · rw [same]
      refine Engine.lookupInternal_congr (fun number listed => ?_) key
      obtain ⟨id, inside, rfl⟩ := List.mem_map.mp listed
      obtain ⟨file, found⟩ := SortedMap.mem_keys_iff.mp (there id inside)
      rw [found, coherent.kept found]
    · exact absurd (there id member) (SortedMap.find?_eq_none_iff.mp missing)
  · intro n key all result answered
    have sound := coherent.phases n
    rw [answered] at sound
    refine sound.2.imp_right ?_
    rintro ⟨failed, id, member, missing⟩
    exact ⟨failed, id, member, SortedMap.find?_eq_none_iff.mp missing⟩
  · intro n id handle purpose holding
    have out := coherent.holders.mem (show (state.calls n).handle? = some handle by rw [holding]; rfl)
    obtain ⟨record, present⟩ := coherent.tidy.live out
    have named := coherent.keyed n id handle purpose holding record present
    obtain ⟨file, there, opened⟩ := (coherent.tidy.routed present).2.2 id named
    exact ⟨record.value, file, by rw [ShardedLRUCache.value, present]; rfl, there, opened⟩

/-- What a step does in the cache is one request at most. -/
theorem Uses.requests (uses : Uses charge state after) : after.clients = state.clients ∨
    ∃ request, state.clients.request request = some after.clients := by
  cases uses with
  | evict id clients erased => exact .inr ⟨_, erased⟩
  | hit n id purpose cache handle was found => exact .inr ⟨_, Clients.request_of_lookup found⟩
  | miss n id purpose cache was found => exact .inr ⟨_, Clients.request_of_lookup found⟩
  | insert n id reader purpose cache handle was inserted => exact .inr ⟨_, Clients.request_of_insert inserted⟩
  | use n id handle key all older reader clients was value released => exact .inr ⟨_, released⟩
  | drop n id handle clients was released => exact .inr ⟨_, released⟩
  | _ => exact .inl rfl

theorem step_grows {act : Act} (moved : step charge state act = some after) :
    after.clients.held.length ≤ state.clients.held.length + 1 ∧
      ∀ i, (after.clients.cache.shards i).allocated ≤ (state.clients.cache.shards i).allocated + 1 := by
  have alone : after.clients = state.clients → after.clients.held.length ≤ state.clients.held.length + 1 ∧
      ∀ i, (after.clients.cache.shards i).allocated ≤ (state.clients.cache.shards i).allocated + 1 := by
    intro same
    rw [same]
    exact ⟨Nat.le_succ _, fun i => Nat.le_succ _⟩
  cases step_moves moved with
  | publish id file fresh => exact alone rfl
  | remove id => exact alone rfl
  | uses used =>
    rcases used.requests with same | ⟨request, returned⟩
    · exact alone same
    · exact Clients.request_grows returned

theorem run_grows {acts : List Act} (ran : Interleaving.run (step charge) state acts = some after) :
    after.clients.held.length ≤ state.clients.held.length + acts.length ∧
      ∀ i, (after.clients.cache.shards i).allocated ≤ (state.clients.cache.shards i).allocated + acts.length := by
  induction acts generalizing state with
  | nil =>
    cases ran
    exact ⟨le_rfl, fun i => le_rfl⟩
  | cons act later ih =>
    obtain ⟨next, moved, rest⟩ := Option.bind_eq_some_iff.mp ran
    obtain ⟨held, made⟩ := step_grows moved
    obtain ⟨heldLater, madeLater⟩ := ih rest
    rw [List.length_cons]
    refine ⟨by omega, fun i => ?_⟩
    have first := made i
    have others := madeLater i
    omega

/-- The counters of a new cache last for 2^31 steps. -/
theorem bounded_of_short {capacity numShards : UInt64} {acts : List Act} {start : State}
    (created : State.new capacity numShards = some start) (short : acts.length < 2 ^ 31)
    (ran : Interleaving.run (step charge) start acts = some state) : Bounded state := by
  obtain ⟨clients, creating, same⟩ := Option.bind_eq_some_iff.mp created
  cases same
  obtain ⟨cache, made, same⟩ := Option.bind_eq_some_iff.mp creating
  cases same
  obtain ⟨held, allocated⟩ := run_grows ran
  have fresh : ∀ i, (cache.shards i).allocated = 0 := by
    intro i
    simp only [ShardedLRUCache.new] at made
    split at made
    · cases made
    · cases made
      rfl
  constructor
  · change _ ≤ 0 + _ at held
    omega
  · intro i
    have fewer : (state.clients.cache.shards i).cached.length ≤ (state.clients.cache.shards i).allocated :=
      (List.length_filter_le _ _).trans_eq List.length_range
    have few := allocated i
    change _ ≤ (cache.shards i).allocated + _ at few
    rw [fresh] at few
    omega

/-- A second lookup finds the reader of the first. Before it uses it, the reader is evicted
and the file is removed. -/
def evictedMeanwhile (file : Bytes) : List Act :=
  [.publish 1 file, .lookup 0 [7] [1], .ask 0, .open 0, .insert 0, .use 0,
    .lookup 1 [7] [1], .ask 1, .evict 1, .remove 1, .use 1]

def Phase.answer? : Phase → Option (Key × List UInt64 × Except Error (Option InternalValue))
  | .answered key all result => some (key, all, result)
  | _ => none

theorem Phase.answered_of {phase : Phase} {key : Key} {all : List UInt64} {result : Except Error (Option InternalValue)}
    (answered : phase.answer? = some (key, all, result)) : phase = .answered key all result := by
  cases phase <;> cases answered
  rfl

def sevens : Bytes := tableFile nominalSizing 1 [([7], ⟨[70], false, 1⟩)]

/-- The reader comes from the cache and is still that of its file, which is gone. -/
theorem cached_lookups_answer_as_files_evicted :
    ∃ start state, State.new 4 2 = some start ∧
      Interleaving.run (step fun _ => 1) start (evictedMeanwhile sevens) = some state ∧
      ∃ result, state.calls 1 = .answered [7] [1] result ∧ result = .ok (some ⟨[70], false, 1⟩) ∧
        result = Engine.lookupInternal (byteFormat nominalSizing) state.written [7] [1] := by
  have summary : ((State.new 4 2).bind fun start =>
      Interleaving.run (step fun _ => 1) start (evictedMeanwhile sevens)).map (fun state => (state.calls 1).answer?) =
        some (some ([7], [1], .ok (some ⟨[70], false, 1⟩))) := by
    decide +kernel
  obtain ⟨state, went, answer⟩ := Option.map_eq_some_iff.mp summary
  obtain ⟨start, created, reached⟩ := Option.bind_eq_some_iff.mp went
  have answered := Phase.answered_of answer
  refine ⟨start, state, created, reached, _, answered, rfl, ?_⟩
  have short : (evictedMeanwhile sevens).length < 2 ^ 31 := by simp [evictedMeanwhile]
  refine ((cached_lookups_answer_as_files nominalSizing (fun _ => 1) created reached fun earlier initial middle ran =>
    bounded_of_short created (initial.length_le.trans_lt short) ran).2.1 1 [7] [1] _ answered).resolve_right ?_
  rintro ⟨failed, _⟩
  cases failed

end TableCache

end Enigma
