import Enigma.Cache.Contract
import Enigma.Codec.Hash

/-! The cache that clients see. A key belongs to the shard that its hash says; a handle
carries the hash of its key, and that is how it comes back to its shard. -/

namespace Enigma

namespace Cache

variable {V D : Type}

def hashSv (key : Key) : Nat := (hash key 0).toNat

/-- A handle by the shard in whose memory it is and its address there. -/
structure Handle where
  shard : Nat
  e : Nat
  deriving DecidableEq

structure ShardedLRUCache (V D : Type) where
  numShards : UInt64
  shards : Nat → LRUCache V D
  lastId : UInt64

namespace ShardedLRUCache

def perShard (capacity numShards : UInt64) : UInt64 := (capacity + (numShards - 1)) / numShards

/-- Without shards the constructor divides by zero. -/
def new (capacity numShards : UInt64) : Option (ShardedLRUCache V D) :=
  if numShards = 0 then none
  else some { numShards, shards := fun _ => .new (perShard capacity numShards), lastId := 0 }

def shard (cache : ShardedLRUCache V D) (hash : Nat) : Nat := hash % cache.numShards.toNat

/-- The shard of a key. -/
def shardOf (cache : ShardedLRUCache V D) (key : Key) : Nat := cache.shard (hashSv key)

def setShard (cache : ShardedLRUCache V D) (i : Nat) (shard : LRUCache V D) : ShardedLRUCache V D :=
  { cache with shards := Function.update cache.shards i shard }

def insert (cache : ShardedLRUCache V D) (key : Key) (value : V) (charge : UInt64) (deleter : D) :
    Option (ShardedLRUCache V D × Handle) := do
  let i := cache.shard (hashSv key)
  let (shard, e) ← (cache.shards i).insert key (hashSv key) value charge deleter
  return (cache.setShard i shard, ⟨i, e⟩)

def lookup (cache : ShardedLRUCache V D) (key : Key) : Option (ShardedLRUCache V D × Option Handle) := do
  let i := cache.shard (hashSv key)
  let (shard, found) ← (cache.shards i).lookup key (hashSv key)
  return (cache.setShard i shard, found.map (Handle.mk i))

/-- The shard is found by the hash in the handle. One that it does not belong to would link
it among entries of its own. -/
def release (cache : ShardedLRUCache V D) (handle : Handle) : Option (ShardedLRUCache V D) := do
  let h ← (cache.shards handle.shard).handles handle.e
  let i := cache.shard h.hash
  guard (i = handle.shard)
  return cache.setShard i (← (cache.shards i).release handle.e)

def erase (cache : ShardedLRUCache V D) (key : Key) : Option (ShardedLRUCache V D) := do
  let i := cache.shard (hashSv key)
  return cache.setShard i (← (cache.shards i).erase key (hashSv key))

def value (cache : ShardedLRUCache V D) (handle : Handle) : Option V :=
  ((cache.shards handle.shard).handles handle.e).map LRUHandle.value

def newId (cache : ShardedLRUCache V D) : ShardedLRUCache V D × UInt64 :=
  ({ cache with lastId := cache.lastId + 1 }, cache.lastId + 1)

/-- Some shards in turn. -/
def eachShard (change : LRUCache V D → Option (LRUCache V D)) :
    List Nat → ShardedLRUCache V D → Option (ShardedLRUCache V D)
  | [], cache => some cache
  | i :: later, cache => do eachShard change later (cache.setShard i (← change (cache.shards i)))

def prune (cache : ShardedLRUCache V D) : Option (ShardedLRUCache V D) :=
  eachShard LRUCache.prune (List.range cache.numShards.toNat) cache

def totalCharge (cache : ShardedLRUCache V D) : UInt64 :=
  (List.range cache.numShards.toNat).foldl (fun total i => total + (cache.shards i).usage) 0

def getStats (cache : ShardedLRUCache V D) : Stats :=
  (List.range cache.numShards.toNat).foldl (fun total i =>
    let s := (cache.shards i).stats
    ⟨total.totalEvictions + s.totalEvictions, total.totalInserts + s.totalInserts, total.totalMisses + s.totalMisses,
      total.totalHits + s.totalHits⟩) ⟨0, 0, 0, 0⟩

/-- The last shard is destroyed first. -/
def destroy (cache : ShardedLRUCache V D) : Option (ShardedLRUCache V D) :=
  eachShard LRUCache.destroy (List.range cache.numShards.toNat).reverse cache

end ShardedLRUCache

/-- The cache and the handles that clients have not released yet. -/
structure Clients (V D : Type) where
  cache : ShardedLRUCache V D
  held : List Handle

inductive Request (V D : Type) where
  | insert (key : Key) (value : V) (charge : UInt64) (deleter : D)
  | lookup (key : Key)
  | release (handle : Handle)
  | erase (key : Key)
  | prune

namespace Clients

def new (capacity numShards : UInt64) : Option (Clients V D) := do
  return ⟨← ShardedLRUCache.new capacity numShards, []⟩

def request (clients : Clients V D) : Request V D → Option (Clients V D)
  | .insert key value charge deleter => do
    let (cache, handle) ← clients.cache.insert key value charge deleter
    return ⟨cache, handle :: clients.held⟩
  | .lookup key => do
    let (cache, found) ← clients.cache.lookup key
    return ⟨cache, found.toList ++ clients.held⟩
  | .release handle => do return ⟨← clients.cache.release handle, clients.held.erase handle⟩
  | .erase key => do return ⟨← clients.cache.erase key, clients.held⟩
  | .prune => do return ⟨← clients.cache.prune, clients.held⟩

theorem request_of_insert {clients : Clients V D} {cache : ShardedLRUCache V D} {key : Key} {value : V} {charge : UInt64}
    {deleter : D} {handle : Handle} (inserted : clients.cache.insert key value charge deleter = some (cache, handle)) :
    clients.request (.insert key value charge deleter) = some ⟨cache, handle :: clients.held⟩ := by
  rw [request, inserted]
  rfl

theorem request_of_lookup {clients : Clients V D} {cache : ShardedLRUCache V D} {key : Key} {found : Option Handle}
    (looked : clients.cache.lookup key = some (cache, found)) :
    clients.request (.lookup key) = some ⟨cache, found.toList ++ clients.held⟩ := by
  rw [request, looked]
  rfl

/-- The handles of one shard. -/
def heldOf (clients : Clients V D) (i : Nat) : List Nat :=
  clients.held.filterMap fun handle => if handle.shard = i then some handle.e else none

/-- What happens to one shard. -/
def session (clients : Clients V D) (i : Nat) (history : List Event) : Session V D :=
  ⟨clients.cache.shards i, clients.heldOf i, history⟩

end Clients

/-- Clients release only what they hold. -/
def Request.Permitted (clients : Clients V D) : Request V D → Prop
  | .release handle => handle ∈ clients.held
  | _ => True

/-- No counter of a shard overflows. -/
def Request.Counted (clients : Clients V D) : Request V D → Prop
  | .insert key value charge deleter =>
    (Call.insert key value charge deleter).Counted (clients.session (clients.cache.shardOf key) [])
  | .lookup key => (Call.lookup key : Call V D).Counted (clients.session (clients.cache.shardOf key) [])
  | _ => True

instance instDecidableRequestPermitted (clients : Clients V D) :
    (request : Request V D) → Decidable (request.Permitted clients)
  | .release handle => inferInstanceAs (Decidable (handle ∈ clients.held))
  | .insert _ _ _ _ => .isTrue trivial
  | .lookup _ => .isTrue trivial
  | .erase _ => .isTrue trivial
  | .prune => .isTrue trivial

instance instDecidableRequestCounted (clients : Clients V D) :
    (request : Request V D) → Decidable (request.Counted clients)
  | .insert key value charge deleter => inferInstanceAs (Decidable
      ((Call.insert key value charge deleter).Counted (clients.session (clients.cache.shardOf key) [])))
  | .lookup key => inferInstanceAs (Decidable
      ((Call.lookup key : Call V D).Counted (clients.session (clients.cache.shardOf key) [])))
  | .release _ => .isTrue trivial
  | .erase _ => .isTrue trivial
  | .prune => .isTrue trivial

/-- Requests in a row, each of them checked first. -/
def Clients.run (clients : Clients V D) : List (Request V D) → Option (Clients V D)
  | [] => some clients
  | request :: later =>
    if request.Permitted clients ∧ request.Counted clients then do (← clients.request request).run later else none

/-- What requests lead to. -/
inductive Serves (capacity numShards : UInt64) : Clients V D → Prop
  | new {clients : Clients V D} (created : Clients.new capacity numShards = some clients) :
    Serves capacity numShards clients
  | request {clients after : Clients V D} {request : Request V D} (earlier : Serves capacity numShards clients)
    (permitted : request.Permitted clients) (counted : request.Counted clients)
    (returned : clients.request request = some after) : Serves capacity numShards after

theorem Serves.run {capacity numShards : UInt64} {clients after : Clients V D}
    (served : Serves capacity numShards clients) {requests : List (Request V D)}
    (returned : clients.run requests = some after) : Serves capacity numShards after := by
  induction requests generalizing clients with
  | nil => exact Option.some_inj.mp returned ▸ served
  | cons request later ih =>
    rw [Clients.run] at returned
    split at returned
    · rename_i allowed
      obtain ⟨next, stepped, rest⟩ := Option.bind_eq_some_iff.mp returned
      exact ih (served.request allowed.1 allowed.2 stepped) rest
    · cases returned

end Cache

end Enigma
