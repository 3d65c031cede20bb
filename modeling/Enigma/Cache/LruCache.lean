import Enigma.Foundation.IntrusiveRing
import Enigma.Cache.HashMap

/-! One shard of the cache. Two rings run through the handles: the entries that only the
cache refers to, oldest first, and those that a client holds too. A failed assertion, a
read through a null link and an access to a freed handle have no result. -/

namespace Enigma

namespace Cache

variable {V D : Type}

/-- A node of the rings: one of their two heads, or a handle by its address. -/
inductive Node where
  | lru
  | inUse
  | handle (e : Nat)
  deriving DecidableEq

structure Stats where
  totalEvictions : UInt64
  totalInserts : UInt64
  totalMisses : UInt64
  totalHits : UInt64
  deriving DecidableEq

/-- A call of a deleter, with the address of the handle it was called for. -/
structure DeleterCall (V D : Type) where
  handle : Nat
  deleter : D
  key : Key
  value : V
  deriving DecidableEq

structure LRUCache (V D : Type) where
  capacity : UInt64
  usage : UInt64
  links : Links Node
  table : HashMap
  stats : Stats
  handles : Handles V D
  allocated : Nat
  deleterCalls : List (DeleterCall V D)

namespace LRUCache

def headLinks : Node → Option Node
  | .lru => some .lru
  | .inUse => some .inUse
  | .handle _ => none

def new (capacity : UInt64) : LRUCache V D where
  capacity
  usage := 0
  links := ⟨headLinks, headLinks⟩
  table := .new
  stats := ⟨0, 0, 0, 0⟩
  handles := fun _ => none
  allocated := 0
  deleterCalls := []

def setHandle (cache : LRUCache V D) (e : Nat) (handle : LRUHandle V D) : LRUCache V D :=
  { cache with handles := Function.update cache.handles e (some handle) }

def lruRemove (cache : LRUCache V D) (e : Nat) : Option (LRUCache V D) := do
  return { cache with links := ← cache.links.unlink (.handle e) }

def lruAppend (cache : LRUCache V D) (list : Node) (e : Nat) : Option (LRUCache V D) := do
  return { cache with links := ← cache.links.linkLast list (.handle e) }

def ref (cache : LRUCache V D) (e : Nat) : Option (LRUCache V D) := do
  let handle ← cache.handles e
  let counted := { handle with refs := (handle.refs + 1) % 2 ^ 32 }
  if handle.refs = 1 ∧ handle.inCache then
    return (← (← cache.lruRemove e).lruAppend .inUse e).setHandle e counted
  else
    return cache.setHandle e counted

/-- The deleter runs and the handle is freed. -/
def delete (cache : LRUCache V D) (e : Nat) (handle : LRUHandle V D) : LRUCache V D :=
  { cache with
    deleterCalls := cache.deleterCalls ++ [⟨e, handle.deleter, handle.key, handle.value⟩]
    handles := Function.update cache.handles e none
    links := cache.links.forget (.handle e) }

def unref (cache : LRUCache V D) (e : Nat) : Option (LRUCache V D) := do
  let handle ← cache.handles e
  guard (handle.refs > 0)
  let handle := { handle with refs := handle.refs - 1 }
  if handle.refs = 0 then
    guard (handle.inCache = false)
    return cache.delete e handle
  else if handle.inCache ∧ handle.refs = 1 then
    (← (cache.setHandle e handle).lruRemove e).lruAppend .lru e
  else
    return cache.setHandle e handle

/-- Ends an entry's stay in the cache once it is out of the table. Tells whether there was one. -/
def finishErase (cache : LRUCache V D) : Option Nat → Option (LRUCache V D × Bool)
  | none => some (cache, false)
  | some e => do
    let handle ← cache.handles e
    guard (handle.inCache = true)
    let cache ← cache.lruRemove e
    let cache := cache.setHandle e { handle with inCache := false }
    let cache ← { cache with usage := cache.usage - handle.charge }.unref e
    return (cache, true)

def countEviction (cache : LRUCache V D) (erased : Bool) : LRUCache V D :=
  if erased then { cache with stats.totalEvictions := cache.stats.totalEvictions + 1 } else cache

def lookup (cache : LRUCache V D) (key : Key) (hash : Nat) : Option (LRUCache V D × Option Nat) := do
  match ← cache.table.lookup cache.handles key hash with
  | some e =>
    let cache := { cache with stats.totalHits := cache.stats.totalHits + 1 }
    return (← cache.ref e, some e)
  | none => return ({ cache with stats.totalMisses := cache.stats.totalMisses + 1 }, none)

def release (cache : LRUCache V D) (handle : Nat) : Option (LRUCache V D) := cache.unref handle

/-- Takes the entry with a key out of the table and out of the cache. -/
def eraseKey (cache : LRUCache V D) (key : Key) (hash : Nat) : Option (LRUCache V D × Bool) := do
  let (table, found) ← cache.table.remove cache.handles key hash
  { cache with table }.finishErase found

/-- The loop that makes room. -/
def evict : Nat → LRUCache V D → Option (LRUCache V D)
  | 0, _ => none
  | rounds + 1, cache =>
    if cache.usage > cache.capacity then do
      match ← cache.links.next .lru with
      | .lru => return cache
      | .inUse => none
      | .handle old =>
        let handle ← cache.handles old
        guard (handle.refs = 1)
        let (cache, erased) ← cache.eraseKey handle.key handle.hash
        evict rounds (cache.countEviction erased)
    else some cache

/-- Counts a new handle in and links it among those in use. -/
def takeIn (cache : LRUCache V D) (e : Nat) (handle : LRUHandle V D) : Option (LRUCache V D) := do
  let cache := cache.setHandle e { handle with refs := handle.refs + 1, inCache := true }
  let cache ← cache.lruAppend .inUse e
  return { cache with usage := cache.usage + handle.charge }

/-- Puts a new handle into the cache. An entry with its key leaves. -/
def place (cache : LRUCache V D) (e : Nat) (handle : LRUHandle V D) : Option (LRUCache V D) := do
  let cache ← cache.takeIn e handle
  let (table, old) ← cache.table.insert cache.handles e
  let (cache, _) ← { cache with table }.finishErase old
  return { cache with stats.totalInserts := cache.stats.totalInserts + 1 }

def malloc (cache : LRUCache V D) (handle : LRUHandle V D) : LRUCache V D :=
  { cache.setHandle cache.allocated handle with allocated := cache.allocated + 1 }

def insert (cache : LRUCache V D) (key : Key) (hash : Nat) (value : V) (charge : UInt64) (deleter : D) :
    Option (LRUCache V D × Nat) := do
  let e := cache.allocated
  let handle : LRUHandle V D := { value, deleter, charge, key, hash, inCache := false, refs := 1 }
  let cache := cache.malloc handle
  let cache ← if cache.capacity > 0 then cache.place e handle
    else some { cache with links := cache.links.setNext (.handle e) none }
  let cache ← evict (cache.table.elems + 1) cache
  return (cache, e)

def erase (cache : LRUCache V D) (key : Key) (hash : Nat) : Option (LRUCache V D) := do
  let (cache, erased) ← cache.eraseKey key hash
  return cache.countEviction erased

def pruneLoop : Nat → LRUCache V D → Option (LRUCache V D)
  | 0, _ => none
  | rounds + 1, cache => do
    match ← cache.links.next .lru with
    | .lru => return cache
    | .inUse => none
    | .handle e =>
      let handle ← cache.handles e
      guard (handle.refs = 1)
      let (cache, erased) ← cache.eraseKey handle.key handle.hash
      guard (erased = true)
      pruneLoop rounds cache

def prune (cache : LRUCache V D) : Option (LRUCache V D) := pruneLoop (cache.table.elems + 1) cache

/-- The loop of the destructor. It reads the link out of a handle before that may be freed. -/
def dismantle : Nat → Node → LRUCache V D → Option (LRUCache V D)
  | 0, _, _ => none
  | _ + 1, .lru, cache => some cache
  | _ + 1, .inUse, _ => none
  | rounds + 1, .handle e, cache => do
    let next ← cache.links.next (.handle e)
    let handle ← cache.handles e
    guard (handle.inCache = true)
    guard (handle.refs = 1)
    let cache ← (cache.setHandle e { handle with inCache := false }).unref e
    dismantle rounds next cache

def destroy (cache : LRUCache V D) : Option (LRUCache V D) := do
  guard (cache.links.next .inUse = some .inUse)
  dismantle (cache.table.elems + 1) (← cache.links.next .lru) cache

end LRUCache

end Cache

end Enigma
