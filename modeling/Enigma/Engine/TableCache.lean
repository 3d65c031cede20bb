import Enigma.Cache.ShardedRuns
import Enigma.Engine.ByteTables
import Enigma.Foundation.Interleaving

/-! Reads through the table cache. Any number of calls run at the same time; each access
to the cache and each opening of a file is a step of its own, so two calls that miss may
both open a file, and a file may be evicted and removed while a call has it open. -/

namespace Enigma

namespace TableCache

open Cache

def encodeKey (id : UInt64) : Key := encodeUint64 id.toNat

/-- What a call wants a reader for: to look a key up in one table after another, or to
keep it for a while. -/
inductive Purpose where
  | lookup (key : Key) (all older : List UInt64)
  | keep

/-- What a call does next. -/
inductive Phase where
  | idle
  | asking (id : UInt64) (purpose : Purpose)
  | missed (id : UInt64) (purpose : Purpose)
  | opened (id : UInt64) (reader : SSTableReader) (purpose : Purpose)
  | holding (id : UInt64) (handle : Handle) (purpose : Purpose)
  | answered (key : Key) (all : List UInt64) (result : Except Error (Option InternalValue))
  | failed (id : UInt64) (error : Error)
  | dropped

/-- `written` has all table files that were ever there. The deleter of every entry is the
one of readers. -/
structure State where
  disk : Disk Bytes
  written : Disk Bytes
  clients : Clients SSTableReader Unit
  calls : Nat → Phase

inductive Act where
  | publish (id : UInt64) (file : Bytes)
  | remove (id : UInt64)
  | evict (id : UInt64)
  | lookup (n : Nat) (key : Key) (ids : List UInt64)
  | keep (n : Nat) (id : UInt64)
  | ask (n : Nat)
  | open (n : Nat)
  | insert (n : Nat)
  | use (n : Nat)
  | drop (n : Nat)

namespace State

def new (capacity numShards : UInt64) : Option State := do
  return ⟨.empty, .empty, ← Clients.new capacity numShards, fun _ => .idle⟩

def enter (state : State) (n : Nat) (phase : Phase) : State :=
  { state with calls := Function.update state.calls n phase }

@[simp] theorem enter_disk (state : State) (n : Nat) (phase : Phase) : (state.enter n phase).disk = state.disk := rfl

@[simp] theorem enter_written (state : State) (n : Nat) (phase : Phase) :
    (state.enter n phase).written = state.written := rfl

@[simp] theorem enter_clients (state : State) (n : Nat) (phase : Phase) :
    (state.enter n phase).clients = state.clients := rfl

theorem enter_calls_self (state : State) (n : Nat) (phase : Phase) : (state.enter n phase).calls n = phase :=
  Function.update_self (β := fun _ => Phase) n phase state.calls

end State

/-- The loop of `lookup_internal` comes to its next table, or to its end. -/
def next (key : Key) (all : List UInt64) : List UInt64 → Phase
  | [] => .answered key all (.ok none)
  | id :: older => .asking id (.lookup key all older)

/-- A failed `get` ends the call it was made for. -/
def fail (id : UInt64) (error : Error) : Purpose → Phase
  | .lookup key all _ => .answered key all (.error error)
  | .keep => .failed id error

/-- A table file is complete before its number is known to readers, and no number is used
twice. -/
def stepFiles (state : State) : Act → Option State
  | .publish id file =>
    match state.written.sst.find? id.toNat with
    | some _ => none
    | none => some { state with
        disk := state.disk.putTable id.toNat file, written := state.written.putTable id.toNat file }
  | .remove id => some { state with disk := state.disk.dropTable id.toNat }
  | _ => none

def stepGet (charge : SSTableReader → UInt64) (state : State) : Act → Option State
  | .ask n =>
    match state.calls n with
    | .asking id purpose => do
      let (cache, found) ← state.clients.cache.lookup (encodeKey id)
      let clients := ⟨cache, found.toList ++ state.clients.held⟩
      match found with
      | some handle => some ({ state with clients }.enter n (.holding id handle purpose))
      | none => some ({ state with clients }.enter n (.missed id purpose))
    | _ => none
  | .open n =>
    match state.calls n with
    | .missed id purpose =>
      match state.disk.sst.find? id.toNat with
      | none => some (state.enter n (fail id noSuchFile purpose))
      | some file =>
        match SSTableReader.create file with
        | .error error => some (state.enter n (fail id error purpose))
        | .ok reader => some (state.enter n (.opened id reader purpose))
    | _ => none
  | .insert n =>
    match state.calls n with
    | .opened id reader purpose => do
      let (cache, handle) ← state.clients.cache.insert (encodeKey id) reader (charge reader) ()
      some ({ state with clients := ⟨cache, handle :: state.clients.held⟩ }.enter n (.holding id handle purpose))
    | _ => none
  | _ => none

/-- What a lookup makes of the answer of one table. -/
def answer (key : Key) (all older : List UInt64) : Except Error (Option InternalValue) → Phase
  | .error error => .answered key all (.error error)
  | .ok (some value) => .answered key all (.ok (some value))
  | .ok none => next key all older

def stepUse (state : State) : Act → Option State
  | .lookup n key ids =>
    match state.calls n with
    | .idle =>
      -- a version lists tables that have been written
      if ids.all (·.toNat ∈ state.written.sst.keys) then some (state.enter n (next key ids ids)) else none
    | _ => none
  | .keep n id =>
    match state.calls n with
    | .idle => some (state.enter n (.asking id .keep))
    | _ => none
  | .use n =>
    match state.calls n with
    | .holding _ handle (.lookup key all older) => do
      let reader ← state.clients.cache.value handle
      let clients ← state.clients.request (.release handle)
      some ({ state with clients }.enter n (answer key all older (reader.get key)))
    | _ => none
  | .drop n =>
    match state.calls n with
    | .holding _ handle .keep => do
      let clients ← state.clients.request (.release handle)
      some ({ state with clients }.enter n .dropped)
    | _ => none
  | .evict id => do
    let clients ← state.clients.request (.erase (encodeKey id))
    some { state with clients }
  | _ => none

def step (charge : SSTableReader → UInt64) (state : State) (act : Act) : Option State :=
  (stepFiles state act).or ((stepGet charge state act).or (stepUse state act))

/-- The steps that go through the cache, by what they change. -/
inductive Uses (charge : SSTableReader → UInt64) (state : State) : State → Prop where
  | evict (id : UInt64) (clients : Clients SSTableReader Unit)
    (erased : state.clients.request (.erase (encodeKey id)) = some clients) : Uses charge state { state with clients }
  | lookup (n : Nat) (key : Key) (ids : List UInt64) (was : state.calls n = .idle)
    (written : ∀ id ∈ ids, id.toNat ∈ state.written.sst.keys) : Uses charge state (state.enter n (next key ids ids))
  | keep (n : Nat) (id : UInt64) (was : state.calls n = .idle) : Uses charge state (state.enter n (.asking id .keep))
  | hit (n : Nat) (id : UInt64) (purpose : Purpose) (cache : ShardedLRUCache SSTableReader Unit) (handle : Handle)
    (was : state.calls n = .asking id purpose)
    (found : state.clients.cache.lookup (encodeKey id) = some (cache, some handle)) :
    Uses charge state
      ({ state with clients := ⟨cache, handle :: state.clients.held⟩ }.enter n (.holding id handle purpose))
  | miss (n : Nat) (id : UInt64) (purpose : Purpose) (cache : ShardedLRUCache SSTableReader Unit)
    (was : state.calls n = .asking id purpose)
    (found : state.clients.cache.lookup (encodeKey id) = some (cache, none)) :
    Uses charge state ({ state with clients := ⟨cache, state.clients.held⟩ }.enter n (.missed id purpose))
  | absent (n : Nat) (id : UInt64) (purpose : Purpose) (was : state.calls n = .missed id purpose)
    (gone : state.disk.sst.find? id.toNat = none) : Uses charge state (state.enter n (fail id noSuchFile purpose))
  | refuse (n : Nat) (id : UInt64) (purpose : Purpose) (file : Bytes) (error : Error)
    (was : state.calls n = .missed id purpose) (there : state.disk.sst.find? id.toNat = some file)
    (refused : SSTableReader.create file = .error error) : Uses charge state (state.enter n (fail id error purpose))
  | open (n : Nat) (id : UInt64) (purpose : Purpose) (file : Bytes) (reader : SSTableReader)
    (was : state.calls n = .missed id purpose) (there : state.disk.sst.find? id.toNat = some file)
    (created : SSTableReader.create file = .ok reader) : Uses charge state (state.enter n (.opened id reader purpose))
  | insert (n : Nat) (id : UInt64) (reader : SSTableReader) (purpose : Purpose)
    (cache : ShardedLRUCache SSTableReader Unit) (handle : Handle) (was : state.calls n = .opened id reader purpose)
    (inserted : state.clients.cache.insert (encodeKey id) reader (charge reader) () = some (cache, handle)) :
    Uses charge state
      ({ state with clients := ⟨cache, handle :: state.clients.held⟩ }.enter n (.holding id handle purpose))
  | use (n : Nat) (id : UInt64) (handle : Handle) (key : Key) (all older : List UInt64) (reader : SSTableReader)
    (clients : Clients SSTableReader Unit) (was : state.calls n = .holding id handle (.lookup key all older))
    (value : state.clients.cache.value handle = some reader)
    (released : state.clients.request (.release handle) = some clients) :
    Uses charge state ({ state with clients }.enter n (answer key all older (reader.get key)))
  | drop (n : Nat) (id : UInt64) (handle : Handle) (clients : Clients SSTableReader Unit)
    (was : state.calls n = .holding id handle .keep)
    (released : state.clients.request (.release handle) = some clients) :
    Uses charge state ({ state with clients }.enter n .dropped)

/-- The steps by what they change. -/
inductive Moves (charge : SSTableReader → UInt64) (state : State) : State → Prop where
  | publish (id : UInt64) (file : Bytes) (fresh : state.written.sst.find? id.toNat = none) :
    Moves charge state
      { state with disk := state.disk.putTable id.toNat file, written := state.written.putTable id.toNat file }
  | remove (id : UInt64) : Moves charge state { state with disk := state.disk.dropTable id.toNat }
  | uses {after : State} (used : Uses charge state after) : Moves charge state after

variable {charge : SSTableReader → UInt64} {state after : State} {act : Act}

theorem stepFiles_moves (moved : stepFiles state act = some after) : Moves charge state after := by
  cases act with
  | publish id file =>
    simp only [stepFiles] at moved
    split at moved
    · cases moved
    · rename_i fresh
      cases moved
      exact .publish id file fresh
  | remove id =>
    cases moved
    exact .remove id
  | _ => cases moved

theorem stepGet_uses (moved : stepGet charge state act = some after) : Uses charge state after := by
  cases act with
  | ask n =>
    cases was : state.calls n with
    | asking id purpose =>
      simp only [stepGet, was] at moved
      obtain ⟨⟨cache, found⟩, looked, rest⟩ := Option.bind_eq_some_iff.mp moved
      cases found with
      | some handle =>
        cases rest
        exact .hit n id purpose cache handle was looked
      | none =>
        cases rest
        exact .miss n id purpose cache was looked
    | _ => simp [stepGet, was] at moved
  | «open» n =>
    cases was : state.calls n with
    | missed id purpose =>
      simp only [stepGet, was] at moved
      split at moved
      · rename_i gone
        cases moved
        exact .absent n id purpose was gone
      · rename_i file there
        split at moved
        · rename_i error refused
          cases moved
          exact .refuse n id purpose file error was there refused
        · rename_i reader created
          cases moved
          exact .open n id purpose file reader was there created
    | _ => simp [stepGet, was] at moved
  | insert n =>
    cases was : state.calls n with
    | opened id reader purpose =>
      simp only [stepGet, was] at moved
      obtain ⟨⟨cache, handle⟩, inserted, same⟩ := Option.bind_eq_some_iff.mp moved
      cases same
      exact .insert n id reader purpose cache handle was inserted
    | _ => simp [stepGet, was] at moved
  | _ => cases moved

theorem stepUse_uses (moved : stepUse state act = some after) : Uses charge state after := by
  cases act with
  | lookup n key ids =>
    cases was : state.calls n with
    | idle =>
      simp only [stepUse, was] at moved
      split at moved
      · rename_i written
        cases moved
        exact .lookup n key ids was fun id listed => of_decide_eq_true (List.all_eq_true.mp written id listed)
      · cases moved
    | _ => simp [stepUse, was] at moved
  | keep n id =>
    cases was : state.calls n with
    | idle =>
      simp only [stepUse, was, Option.some.injEq] at moved
      subst moved
      exact .keep n id was
    | _ => simp [stepUse, was] at moved
  | use n =>
    cases was : state.calls n with
    | holding id handle purpose =>
      cases purpose with
      | lookup key all older =>
        simp only [stepUse, was] at moved
        obtain ⟨reader, value, rest⟩ := Option.bind_eq_some_iff.mp moved
        obtain ⟨clients, released, same⟩ := Option.bind_eq_some_iff.mp rest
        cases same
        exact .use n id handle key all older reader clients was value released
      | keep => simp [stepUse, was] at moved
    | _ => simp [stepUse, was] at moved
  | drop n =>
    cases was : state.calls n with
    | holding id handle purpose =>
      cases purpose with
      | lookup key all older => simp [stepUse, was] at moved
      | keep =>
        simp only [stepUse, was] at moved
        obtain ⟨clients, released, same⟩ := Option.bind_eq_some_iff.mp moved
        cases same
        exact .drop n id handle clients was released
    | _ => simp [stepUse, was] at moved
  | evict id =>
    obtain ⟨clients, erased, same⟩ := Option.bind_eq_some_iff.mp moved
    cases same
    exact .evict id clients erased
  | _ => cases moved

/-- Only the steps that write and remove files change the directory. -/
theorem Uses.files (uses : Uses charge state after) : after.disk = state.disk ∧ after.written = state.written := by
  cases uses <;> exact ⟨rfl, rfl⟩

theorem step_moves (moved : step charge state act = some after) : Moves charge state after := by
  rcases Option.or_eq_some_iff.mp moved with files | ⟨-, rest⟩
  · exact stepFiles_moves files
  · rcases Option.or_eq_some_iff.mp rest with get | ⟨-, used⟩
    · exact .uses (stepGet_uses get)
    · exact .uses (stepUse_uses used)

end TableCache

end Enigma
