import Enigma.Cache.ShardedCache

/-! What clients of the sharded cache may count on. Handles keep what they were made with,
the hash among it, so every handle goes back to its own shard, and each shard goes through
a session of its own. -/

namespace Enigma

namespace Cache

variable {V D : Type}

/-- Handles are the ones from before, with what they carry unchanged. -/
structure Inherits (before after : LRUCache V D) : Prop where
  allocated : after.allocated = before.allocated
  handles : ∀ e handle, after.handles e = some handle →
    ∃ old, before.handles e = some old ∧ old.payload = handle.payload

namespace Inherits

variable {before middle after cache : LRUCache V D} {e : Nat} {handle old : LRUHandle V D}

theorem of_handles (allocated : after.allocated = before.allocated) (same : after.handles = before.handles) :
    Inherits before after := by
  refine ⟨allocated, fun e handle present => ?_⟩
  exact ⟨handle, same ▸ present, rfl⟩

theorem refl (cache : LRUCache V D) : Inherits cache cache := of_handles rfl rfl

theorem trans (first : Inherits before middle) (second : Inherits middle after) : Inherits before after := by
  refine ⟨second.allocated.trans first.allocated, fun e handle present => ?_⟩
  obtain ⟨between, found, same⟩ := second.handles e handle present
  obtain ⟨old, origin, also⟩ := first.handles e between found
  exact ⟨old, origin, also.trans same⟩

theorem setHandle (present : cache.handles e = some old) (same : old.payload = handle.payload) :
    Inherits cache (cache.setHandle e handle) := by
  refine ⟨rfl, fun other found here => ?_⟩
  change Function.update cache.handles e (some handle) other = some found at here
  by_cases own : other = e
  · subst own
    rw [Function.update_self] at here
    cases here
    exact ⟨old, present, same⟩
  · rw [Function.update_of_ne own] at here
    exact ⟨found, here, rfl⟩

theorem delete (cache : LRUCache V D) (e : Nat) (handle : LRUHandle V D) : Inherits cache (cache.delete e handle) := by
  refine ⟨rfl, fun other found here => ?_⟩
  change Function.update cache.handles e none other = some found at here
  by_cases own : other = e
  · subst own
    rw [Function.update_self] at here
    cases here
  · rw [Function.update_of_ne own] at here
    exact ⟨found, here, rfl⟩

theorem handles_lruRemove (returned : cache.lruRemove e = some after) : after.handles = cache.handles := by
  obtain ⟨links, _, same⟩ := Option.bind_eq_some_iff.mp returned
  cases same
  rfl

theorem handles_lruAppend {list : Node} (returned : cache.lruAppend list e = some after) :
    after.handles = cache.handles := by
  obtain ⟨links, _, same⟩ := Option.bind_eq_some_iff.mp returned
  cases same
  rfl

theorem lruRemove (returned : cache.lruRemove e = some after) : Inherits cache after := by
  refine of_handles ?_ (handles_lruRemove returned)
  obtain ⟨links, _, same⟩ := Option.bind_eq_some_iff.mp returned
  cases same
  rfl

theorem lruAppend {list : Node} (returned : cache.lruAppend list e = some after) : Inherits cache after := by
  refine of_handles ?_ (handles_lruAppend returned)
  obtain ⟨links, _, same⟩ := Option.bind_eq_some_iff.mp returned
  cases same
  rfl

theorem ref (returned : cache.ref e = some after) : Inherits cache after := by
  obtain ⟨handle, present, rest⟩ := Option.bind_eq_some_iff.mp returned
  split at rest
  · obtain ⟨removed, removing, rest⟩ := Option.bind_eq_some_iff.mp rest
    obtain ⟨appended, appending, same⟩ := Option.bind_eq_some_iff.mp rest
    cases same
    have handles := (handles_lruAppend appending).trans (handles_lruRemove removing)
    have still : appended.handles e = some handle := by rw [handles, present]
    exact ((lruRemove removing).trans (lruAppend appending)).trans (setHandle still rfl)
  · cases rest
    exact setHandle present rfl

theorem unref (returned : cache.unref e = some after) : Inherits cache after := by
  obtain ⟨handle, present, rest⟩ := Option.bind_eq_some_iff.mp returned
  obtain ⟨_, _, rest⟩ := Option.bind_eq_some_iff.mp rest
  dsimp only at rest
  split at rest
  · obtain ⟨_, _, same⟩ := Option.bind_eq_some_iff.mp rest
    cases same
    exact delete _ _ _
  · have counted : Inherits cache (cache.setHandle e { handle with refs := handle.refs - 1 }) := setHandle present rfl
    split at rest
    · obtain ⟨removed, removing, appending⟩ := Option.bind_eq_some_iff.mp rest
      exact counted.trans ((lruRemove removing).trans (lruAppend appending))
    · cases rest
      exact counted

theorem finishErase {found : Option Nat} {erased : Bool} (returned : cache.finishErase found = some (after, erased)) :
    Inherits cache after := by
  cases found with
  | none =>
    cases returned
    exact .refl _
  | some e =>
    obtain ⟨handle, present, rest⟩ := Option.bind_eq_some_iff.mp returned
    obtain ⟨_, _, rest⟩ := Option.bind_eq_some_iff.mp rest
    obtain ⟨removed, removing, rest⟩ := Option.bind_eq_some_iff.mp rest
    obtain ⟨unreferenced, dropping, same⟩ := Option.bind_eq_some_iff.mp rest
    cases same
    have handles := handles_lruRemove removing
    have still : removed.handles e = some handle := by rw [handles, present]
    have marked : Inherits removed (removed.setHandle e { handle with inCache := false }) := setHandle still rfl
    refine ((lruRemove removing).trans marked).trans (Inherits.trans ?_ (unref dropping))
    exact of_handles rfl rfl

theorem eraseKey {key : Key} {hash : Nat} {erased : Bool} (returned : cache.eraseKey key hash = some (after, erased)) :
    Inherits cache after := by
  obtain ⟨⟨table, found⟩, _, rest⟩ := Option.bind_eq_some_iff.mp returned
  refine Inherits.trans ?_ (finishErase rest)
  exact of_handles rfl rfl

theorem countEviction (cache : LRUCache V D) (erased : Bool) : Inherits cache (cache.countEviction erased) := by
  cases erased with
  | false => exact .refl _
  | true => exact of_handles rfl rfl

theorem lookup {key : Key} {hash : Nat} {found : Option Nat} (returned : cache.lookup key hash = some (after, found)) :
    Inherits cache after := by
  obtain ⟨result, _, rest⟩ := Option.bind_eq_some_iff.mp returned
  cases result with
  | none =>
    cases rest
    exact of_handles rfl rfl
  | some e =>
    obtain ⟨referenced, referring, same⟩ := Option.bind_eq_some_iff.mp rest
    cases same
    refine Inherits.trans ?_ (ref referring)
    exact of_handles rfl rfl

theorem erase {key : Key} {hash : Nat} (returned : cache.erase key hash = some after) : Inherits cache after := by
  obtain ⟨⟨left, erased⟩, erasing, same⟩ := Option.bind_eq_some_iff.mp returned
  cases same
  exact (eraseKey erasing).trans (countEviction _ _)

theorem evict {rounds : Nat} (returned : LRUCache.evict rounds cache = some after) : Inherits cache after := by
  induction rounds generalizing cache with
  | zero => cases returned
  | succ rounds ih =>
    rw [LRUCache.evict] at returned
    split at returned
    · obtain ⟨next, _, rest⟩ := Option.bind_eq_some_iff.mp returned
      cases next with
      | lru =>
        cases rest
        exact .refl _
      | inUse => cases rest
      | handle old =>
        obtain ⟨handle, _, rest⟩ := Option.bind_eq_some_iff.mp rest
        obtain ⟨_, _, rest⟩ := Option.bind_eq_some_iff.mp rest
        obtain ⟨⟨left, erased⟩, erasing, looped⟩ := Option.bind_eq_some_iff.mp rest
        exact ((eraseKey erasing).trans (countEviction _ _)).trans (ih looped)
    · cases returned
      exact .refl _

theorem pruneLoop {rounds : Nat} (returned : LRUCache.pruneLoop rounds cache = some after) : Inherits cache after := by
  induction rounds generalizing cache with
  | zero => cases returned
  | succ rounds ih =>
    obtain ⟨next, _, rest⟩ := Option.bind_eq_some_iff.mp returned
    cases next with
    | lru =>
      cases rest
      exact .refl _
    | inUse => cases rest
    | handle e =>
      obtain ⟨handle, _, rest⟩ := Option.bind_eq_some_iff.mp rest
      obtain ⟨_, _, rest⟩ := Option.bind_eq_some_iff.mp rest
      obtain ⟨⟨left, erased⟩, erasing, rest⟩ := Option.bind_eq_some_iff.mp rest
      obtain ⟨_, _, looped⟩ := Option.bind_eq_some_iff.mp rest
      exact (eraseKey erasing).trans (ih looped)

theorem place (present : cache.handles e = some handle) (returned : cache.place e handle = some after) :
    Inherits cache after := by
  obtain ⟨taken, taking, rest⟩ := Option.bind_eq_some_iff.mp returned
  obtain ⟨⟨table, old⟩, _, rest⟩ := Option.bind_eq_some_iff.mp rest
  obtain ⟨⟨left, erased⟩, erasing, same⟩ := Option.bind_eq_some_iff.mp rest
  cases same
  obtain ⟨appended, appending, also⟩ := Option.bind_eq_some_iff.mp taking
  cases also
  have marked : Inherits cache (cache.setHandle e { handle with refs := handle.refs + 1, inCache := true }) :=
    setHandle present rfl
  have taken := marked.trans (lruAppend appending)
  refine (taken.trans (Inherits.trans ?_ (finishErase erasing))).trans ?_
  · exact of_handles rfl rfl
  · exact of_handles rfl rfl

/-- An insertion makes one handle and returns it. -/
theorem insert {key : Key} {hash : Nat} {value : V} {charge : UInt64} {deleter : D}
    (returned : cache.insert key hash value charge deleter = some (after, e)) :
    e = cache.allocated ∧ Inherits (cache.malloc ⟨value, deleter, charge, key, hash, false, 1⟩) after := by
  dsimp only [LRUCache.insert] at returned
  split at returned
  · obtain ⟨placed, placing, rest⟩ := Option.bind_eq_some_iff.mp returned
    obtain ⟨left, evicting, same⟩ := Option.bind_eq_some_iff.mp rest
    cases same
    exact ⟨rfl, (place (Function.update_self ..) placing).trans (evict evicting)⟩
  · obtain ⟨bypassed, skipping, rest⟩ := Option.bind_eq_some_iff.mp returned
    obtain ⟨left, evicting, same⟩ := Option.bind_eq_some_iff.mp rest
    cases same
    cases skipping
    refine ⟨rfl, Inherits.trans ?_ (evict evicting)⟩
    exact of_handles rfl rfl

end Inherits

/-- What a change of some shards in turn does to each of them. -/
theorem eachShard_returns {change : LRUCache V D → Option (LRUCache V D)} {shards : List Nat} (distinct : shards.Nodup)
    (cache : ShardedLRUCache V D) (returns : ∀ i ∈ shards, ∃ after, change (cache.shards i) = some after) :
    ∃ after, ShardedLRUCache.eachShard change shards cache = some after ∧ after.numShards = cache.numShards ∧
      (∀ i ∈ shards, change (cache.shards i) = some (after.shards i)) ∧
      ∀ i, i ∉ shards → after.shards i = cache.shards i := by
  induction shards generalizing cache with
  | nil => exact ⟨cache, rfl, rfl, by simp, fun _ _ => rfl⟩
  | cons first rest ih =>
    obtain ⟨fresh, distinct⟩ := List.nodup_cons.mp distinct
    obtain ⟨changed, changing⟩ := returns first List.mem_cons_self
    have still : ∀ i, i ≠ first → (cache.setShard first changed).shards i = cache.shards i :=
      fun i different => Function.update_of_ne different ..
    have later : ∀ i ∈ rest, i ≠ first := fun i member same => fresh (same ▸ member)
    obtain ⟨after, computed, number, inside, outside⟩ := ih distinct (cache.setShard first changed) (by
      intro i member
      rw [still i (later i member)]
      exact returns i (List.mem_cons_of_mem _ member))
    refine ⟨after, by rw [ShardedLRUCache.eachShard, changing]; exact computed, number, ?_, ?_⟩
    · intro i member
      rcases List.mem_cons.mp member with rfl | member
      · have here : (cache.setShard i changed).shards i = changed := Function.update_self ..
        rw [outside i fresh, changing, here]
      · rw [← inside i member, still i (later i member)]
    · intro i missing
      obtain ⟨different, absent⟩ := not_or.mp (fun either => missing (List.mem_cons.mpr either))
      rw [outside i absent, still i different]

section Allocation

variable {cache after : ShardedLRUCache V D} {clients : Clients V D} {i made : Nat}

theorem allocated_setShard {shard : LRUCache V D} (few : shard.allocated ≤ (cache.shards i).allocated + made) (j : Nat) :
    ((cache.setShard i shard).shards j).allocated ≤ (cache.shards j).allocated + made := by
  change (Function.update cache.shards i shard j).allocated ≤ _
  rw [Function.update_apply]
  split
  · rename_i here
    exact here ▸ few
  · exact Nat.le_add_right _ _

theorem allocated_of_inherits {shard : LRUCache V D} (inherits : Inherits (cache.shards i) shard) (j : Nat) :
    ((cache.setShard i shard).shards j).allocated ≤ (cache.shards j).allocated :=
  @allocated_setShard _ _ cache i 0 shard inherits.allocated.le j

theorem allocated_eachShard {change : LRUCache V D → Option (LRUCache V D)}
    (inherits : ∀ {shard changed}, change shard = some changed → Inherits shard changed) {shards : List Nat}
    (returned : ShardedLRUCache.eachShard change shards cache = some after) (j : Nat) :
    (after.shards j).allocated ≤ (cache.shards j).allocated := by
  induction shards generalizing cache with
  | nil =>
    cases returned
    exact le_rfl
  | cons first rest ih =>
    obtain ⟨changed, changing, later⟩ := Option.bind_eq_some_iff.mp returned
    exact (ih later).trans (allocated_of_inherits (inherits changing) j)

/-- A request makes one handle at most, and hands out one at most. -/
theorem Clients.request_grows {request : Request V D} {later : Clients V D}
    (returned : clients.request request = some later) : later.held.length ≤ clients.held.length + 1 ∧
      ∀ j, (later.cache.shards j).allocated ≤ (clients.cache.shards j).allocated + 1 := by
  cases request with
  | insert key value charge deleter =>
    obtain ⟨⟨cache, handle⟩, inserted, same⟩ := Option.bind_eq_some_iff.mp returned
    cases same
    obtain ⟨⟨shard, e⟩, inserting, same⟩ := Option.bind_eq_some_iff.mp inserted
    cases same
    obtain ⟨-, inherits⟩ := Inherits.insert inserting
    exact ⟨le_rfl, allocated_setShard inherits.allocated.le⟩
  | lookup key =>
    obtain ⟨⟨cache, found⟩, looked, same⟩ := Option.bind_eq_some_iff.mp returned
    cases same
    obtain ⟨⟨shard, e⟩, looking, same⟩ := Option.bind_eq_some_iff.mp looked
    cases same
    refine ⟨?_, fun j => (allocated_of_inherits (Inherits.lookup looking) j).trans (Nat.le_succ _)⟩
    cases e <;> simp
  | release handle =>
    obtain ⟨cache, released, same⟩ := Option.bind_eq_some_iff.mp returned
    cases same
    obtain ⟨_, _, rest⟩ := Option.bind_eq_some_iff.mp released
    obtain ⟨_, _, rest⟩ := Option.bind_eq_some_iff.mp rest
    obtain ⟨shard, unreferenced, same⟩ := Option.bind_eq_some_iff.mp rest
    cases same
    refine ⟨?_, fun j => (allocated_of_inherits (Inherits.unref unreferenced) j).trans (Nat.le_succ _)⟩
    exact List.erase_sublist.length_le.trans (Nat.le_succ _)
  | erase key =>
    obtain ⟨cache, erased, same⟩ := Option.bind_eq_some_iff.mp returned
    cases same
    obtain ⟨shard, erasing, same⟩ := Option.bind_eq_some_iff.mp erased
    cases same
    exact ⟨Nat.le_succ _, fun j => (allocated_of_inherits (Inherits.erase erasing) j).trans (Nat.le_succ _)⟩
  | prune =>
    obtain ⟨cache, pruned, same⟩ := Option.bind_eq_some_iff.mp returned
    cases same
    have fewer := allocated_eachShard (fun pruning => Inherits.pruneLoop pruning) pruned
    exact ⟨Nat.le_succ _, fun j => (fewer j).trans (Nat.le_succ _)⟩

end Allocation

/-- The books of all shards. What a handle carries is as `fits` says. -/
structure Tidy (fits : Key → V → Prop) (clients : Clients V D) : Prop where
  sharded : 0 < clients.cache.numShards.toNat
  routed : ∀ {i e handle}, (clients.cache.shards i).handles e = some handle →
    handle.hash = hashSv handle.key ∧ clients.cache.shard handle.hash = i ∧ fits handle.key handle.value
  ordered : ∀ i, ∃ history lru inUse, (clients.session i history).InOrder hashSv lru inUse

/-- A shard has an entry for a key, at some address. -/
def Stored (cache : ShardedLRUCache V D) (handle : Handle) (key : Key) : Prop :=
  handle.e ∈ (cache.shards handle.shard).cached ∧ keyOf (cache.shards handle.shard).handles handle.e = some key

/-- What a request has to bring along. -/
def Request.Fits (fits : Key → V → Prop) : Request V D → Prop
  | .insert key value _ _ => fits key value
  | _ => True

namespace Tidy

variable {fits : Key → V → Prop} {clients : Clients V D} {i : Nat}

theorem mono {other : Key → V → Prop} (tidy : Tidy fits clients) (weaker : ∀ {key value}, fits key value → other key value) :
    Tidy other clients where
  sharded := tidy.sharded
  routed := fun present => (tidy.routed present).imp_right (And.imp_right weaker)
  ordered := tidy.ordered

theorem call (tidy : Tidy fits clients) (i : Nat) (call : Call V D) (permitted : call.Permitted (clients.session i []))
    (counted : call.Counted (clients.session i [])) : ∃ history after lru inUse,
      (clients.session i history).call hashSv call = some after ∧ after.InOrder hashSv lru inUse := by
  obtain ⟨history, lru, inUse, order⟩ := tidy.ordered i
  have allowed : call.Permitted (clients.session i history) := by
    cases call <;> exact permitted
  have bounded : call.Counted (clients.session i history) := by
    cases call <;> exact counted
  obtain ⟨after, lruAfter, inUseAfter, computed, kept, _⟩ := order.call allowed bounded
  exact ⟨history, after, lruAfter, inUseAfter, computed, kept⟩

/-- One shard changes, and so does what is held of it. -/
theorem update (tidy : Tidy fits clients) {shard : LRUCache V D} {held : List Handle} {handles lru inUse : List Nat}
    {history : List Event} (order : Session.InOrder hashSv ⟨shard, handles, history⟩ lru inUse)
    (own : (Clients.mk clients.cache held).heldOf i = handles)
    (others : ∀ j ≠ i, (Clients.mk clients.cache held).heldOf j = clients.heldOf j)
    (routed : ∀ {e handle}, shard.handles e = some handle →
      handle.hash = hashSv handle.key ∧ clients.cache.shard handle.hash = i ∧ fits handle.key handle.value) :
    Tidy fits ⟨clients.cache.setShard i shard, held⟩ where
  sharded := tidy.sharded
  routed := by
    intro j e handle present
    change (Function.update clients.cache.shards i shard j).handles e = _ at present
    by_cases here : j = i
    · subst here
      rw [Function.update_self] at present
      exact routed present
    · rw [Function.update_of_ne here] at present
      exact tidy.routed present
  ordered := by
    intro j
    change ∃ history lru inUse, Session.InOrder hashSv
      ⟨Function.update clients.cache.shards i shard j, (Clients.mk clients.cache held).heldOf j, history⟩ lru inUse
    by_cases here : j = i
    · subst here
      rw [Function.update_self, own]
      exact ⟨history, lru, inUse, order⟩
    · rw [Function.update_of_ne here, others j here]
      exact tidy.ordered j

/-- What a shard keeps of its handles, they carry as before. -/
theorem routed_of_inherits (tidy : Tidy fits clients) {shard : LRUCache V D}
    (inherits : Inherits (clients.cache.shards i) shard) {e : Nat} {handle : LRUHandle V D}
    (present : shard.handles e = some handle) :
    handle.hash = hashSv handle.key ∧ clients.cache.shard handle.hash = i ∧ fits handle.key handle.value := by
  obtain ⟨old, found, same⟩ := inherits.handles e handle present
  simp only [LRUHandle.payload, Prod.mk.injEq] at same
  obtain ⟨value, _, _, key, hash⟩ := same
  rw [← value, ← key, ← hash]
  exact tidy.routed found

theorem insert (tidy : Tidy fits clients) {key : Key} {value : V} {charge : UInt64} {deleter : D} (fitting : fits key value)
    (counted : (Request.insert key value charge deleter).Counted clients) : ∃ after,
      clients.request (.insert key value charge deleter) = some after ∧ Tidy fits after := by
  obtain ⟨history, after, lru, inUse, computed, order⟩ := tidy.call (clients.cache.shardOf key)
    (.insert key value charge deleter) trivial counted
  obtain ⟨⟨shard, e⟩, inserted, same⟩ := Option.bind_eq_some_iff.mp computed
  cases same
  refine ⟨⟨clients.cache.setShard (clients.cache.shardOf key) shard, ⟨clients.cache.shardOf key, e⟩ :: clients.held⟩,
    ?_, ?_⟩
  · change ((clients.cache.shards (clients.cache.shard (hashSv key))).insert key (hashSv key) value charge deleter) = _
      at inserted
    simp only [Clients.request, ShardedLRUCache.insert, inserted]
    rfl
  · obtain ⟨new, inherits⟩ := Inherits.insert inserted
    refine tidy.update order ?_ ?_ ?_
    · rw [Clients.heldOf, List.filterMap_cons, if_pos rfl]
      rfl
    · intro j different
      rw [Clients.heldOf, List.filterMap_cons, if_neg (Ne.symm different)]
      rfl
    · intro other handle present
      obtain ⟨old, found, payload⟩ := inherits.handles other handle present
      simp only [LRUHandle.payload, Prod.mk.injEq] at payload
      obtain ⟨sameValue, _, _, sameKey, sameHash⟩ := payload
      rw [← sameValue, ← sameKey, ← sameHash]
      let shard := clients.cache.shards (clients.cache.shardOf key)
      change Function.update shard.handles shard.allocated _ _ = _ at found
      by_cases here : other = shard.allocated
      · subst here
        rw [Function.update_self] at found
        cases found
        exact ⟨rfl, rfl, fitting⟩
      · rw [Function.update_of_ne here] at found
        exact tidy.routed found

theorem lookup (tidy : Tidy fits clients) {key : Key} (counted : (Request.lookup key : Request V D).Counted clients) :
    ∃ after, clients.request (.lookup key) = some after ∧ Tidy fits after := by
  obtain ⟨history, after, lru, inUse, computed, order⟩ := tidy.call (clients.cache.shardOf key) (.lookup key) trivial counted
  obtain ⟨⟨shard, found⟩, looked, same⟩ := Option.bind_eq_some_iff.mp computed
  cases same
  refine ⟨⟨clients.cache.setShard (clients.cache.shardOf key) shard,
    (found.map (Handle.mk (clients.cache.shardOf key))).toList ++ clients.held⟩, ?_, ?_⟩
  · change ((clients.cache.shards (clients.cache.shard (hashSv key))).lookup key (hashSv key)) = _ at looked
    simp only [Clients.request, ShardedLRUCache.lookup, looked]
    rfl
  · refine tidy.update order ?_ ?_ (tidy.routed_of_inherits (Inherits.lookup looked))
    · cases found with
      | none => rfl
      | some e =>
        rw [Clients.heldOf, Option.map_some, Option.toList_some, List.singleton_append, List.filterMap_cons, if_pos rfl]
        rfl
    · intro j different
      cases found with
      | none => rfl
      | some e =>
        rw [Clients.heldOf, Option.map_some, Option.toList_some, List.singleton_append, List.filterMap_cons,
          if_neg (Ne.symm different)]
        rfl

theorem erase (tidy : Tidy fits clients) (key : Key) :
    ∃ after, clients.request (.erase key) = some after ∧ Tidy fits after := by
  obtain ⟨history, after, lru, inUse, computed, order⟩ := tidy.call (clients.cache.shardOf key) (.erase key) trivial trivial
  obtain ⟨shard, erased, same⟩ := Option.bind_eq_some_iff.mp computed
  cases same
  refine ⟨⟨clients.cache.setShard (clients.cache.shardOf key) shard, clients.held⟩, ?_, ?_⟩
  · change ((clients.cache.shards (clients.cache.shard (hashSv key))).erase key (hashSv key)) = _ at erased
    simp only [Clients.request, ShardedLRUCache.erase, erased]
    rfl
  · exact tidy.update order rfl (fun _ _ => rfl) (tidy.routed_of_inherits (Inherits.erase erased))

theorem mem_heldOf {handle : Handle} (holding : handle ∈ clients.held) : handle.e ∈ clients.heldOf handle.shard :=
  List.mem_filterMap.mpr ⟨handle, holding, if_pos rfl⟩

/-- What clients hold has not been freed. -/
theorem live (tidy : Tidy fits clients) {handle : Handle} (holding : handle ∈ clients.held) :
    ∃ record, (clients.cache.shards handle.shard).handles handle.e = some record := by
  obtain ⟨history, lru, inUse, order⟩ := tidy.ordered handle.shard
  have positive : 0 < (clients.heldOf handle.shard).count handle.e := List.count_pos_iff.mpr (mem_heldOf holding)
  have settled := order.sound.settled handle.e
  cases settled with
  | unused _ _ released => exact absurd released positive.ne'
  | busy present => exact ⟨_, present⟩
  | idle present => exact ⟨_, present⟩
  | detached present => exact ⟨_, present⟩
  | deleted _ _ released => exact absurd released positive.ne'

theorem heldOf_erase (cache : ShardedLRUCache V D) (held : List Handle) (handle : Handle) (j : Nat) :
    (Clients.mk cache (held.erase handle)).heldOf j =
      if handle.shard = j then ((Clients.mk cache held).heldOf j).erase handle.e else (Clients.mk cache held).heldOf j := by
  induction held with
  | nil => simp [Clients.heldOf]
  | cons first rest ih =>
    simp only [Clients.heldOf] at ih ⊢
    by_cases same : first = handle
    · subst same
      rw [List.erase_cons_head, List.filterMap_cons]
      split <;> simp
    · rw [List.erase_cons_tail (by simpa using same), List.filterMap_cons, List.filterMap_cons, ih]
      by_cases here : first.shard = j
      · have apart : handle.shard = j → first.e ≠ handle.e := by
          intro there equal
          obtain ⟨shard, e⟩ := first
          obtain ⟨other, f⟩ := handle
          cases here
          cases there
          cases equal
          exact same rfl
        simp only [here, if_true]
        split
        · rename_i there
          rw [List.erase_cons_tail (by simpa using apart there)]
        · rfl
      · simp only [here, if_false]

theorem release (tidy : Tidy fits clients) {handle : Handle} (holding : handle ∈ clients.held) :
    ∃ after, clients.request (.release handle) = some after ∧ Tidy fits after := by
  obtain ⟨record, present⟩ := tidy.live holding
  obtain ⟨_, home, _⟩ := tidy.routed present
  obtain ⟨history, after, lru, inUse, computed, order⟩ :=
    tidy.call handle.shard (.release handle.e) (mem_heldOf holding) trivial
  obtain ⟨shard, released, same⟩ := Option.bind_eq_some_iff.mp computed
  cases same
  refine ⟨⟨clients.cache.setShard handle.shard shard, clients.held.erase handle⟩, ?_, ?_⟩
  · change ((clients.cache.shards handle.shard).release handle.e) = _ at released
    simp [Clients.request, ShardedLRUCache.release, present, home, released]
  · refine tidy.update order ?_ ?_ (tidy.routed_of_inherits (Inherits.unref released))
    · rw [heldOf_erase, if_pos rfl]
      rfl
    · intro j different
      rw [heldOf_erase, if_neg (Ne.symm different)]

theorem prune (tidy : Tidy fits clients) : ∃ after, clients.request .prune = some after ∧ Tidy fits after := by
  have pruned : ∀ i, ∃ shard history lru inUse, (clients.cache.shards i).prune = some shard ∧
      Session.InOrder hashSv ⟨shard, clients.heldOf i, history⟩ lru inUse := by
    intro i
    obtain ⟨history, after, lru, inUse, computed, order⟩ := tidy.call i .prune trivial trivial
    obtain ⟨shard, pruning, same⟩ := Option.bind_eq_some_iff.mp computed
    cases same
    exact ⟨shard, _, lru, inUse, pruning, order⟩
  obtain ⟨after, computed, number, inside, outside⟩ :=
    eachShard_returns (List.nodup_range (n := clients.cache.numShards.toNat)) clients.cache fun i _ => by
      obtain ⟨shard, _, _, _, pruning, _⟩ := pruned i
      exact ⟨shard, pruning⟩
  refine ⟨⟨after, clients.held⟩, ?_, ?_⟩
  · simp only [Clients.request, ShardedLRUCache.prune, computed]
    rfl
  · have route : ∀ hash, after.shard hash = clients.cache.shard hash := fun hash => by
      rw [ShardedLRUCache.shard, ShardedLRUCache.shard, number]
    refine ⟨number ▸ tidy.sharded, ?_, ?_⟩
    · intro i e handle present
      change (after.shards i).handles e = _ at present
      rw [show (Clients.mk after clients.held).cache.shard handle.hash = _ from route _]
      by_cases listed : i ∈ List.range clients.cache.numShards.toNat
      · exact tidy.routed_of_inherits (Inherits.pruneLoop (inside i listed)) present
      · rw [outside i listed] at present
        exact tidy.routed present
    · intro i
      change ∃ history lru inUse, Session.InOrder hashSv ⟨after.shards i, clients.heldOf i, history⟩ lru inUse
      by_cases listed : i ∈ List.range clients.cache.numShards.toNat
      · obtain ⟨shard, history, lru, inUse, pruning, order⟩ := pruned i
        cases (inside i listed).symm.trans pruning
        exact ⟨history, lru, inUse, order⟩
      · rw [outside i listed]
        exact tidy.ordered i

theorem request (tidy : Tidy fits clients) {request : Request V D} (permitted : request.Permitted clients)
    (counted : request.Counted clients) (fitting : request.Fits fits) :
    ∃ after, clients.request request = some after ∧ Tidy fits after := by
  cases request with
  | insert key value charge deleter => exact tidy.insert fitting counted
  | lookup key => exact tidy.lookup counted
  | release handle => exact tidy.release permitted
  | erase key => exact tidy.erase key
  | prune => exact tidy.prune

theorem new {capacity numShards : UInt64} (created : Clients.new capacity numShards = some clients) :
    Tidy fits clients := by
  obtain ⟨cache, creating, same⟩ := Option.bind_eq_some_iff.mp created
  cases same
  rw [ShardedLRUCache.new] at creating
  split at creating
  · cases creating
  · rename_i nonzero
    cases creating
    refine ⟨UInt64.pos_iff_ne_zero.mpr nonzero, ?_, fun i => ⟨[], [], [], Session.inOrder_new _⟩⟩
    intro i e handle present
    cases present

section Inheritance

variable {cache : ShardedLRUCache V D} {handle : Handle} {record : LRUHandle V D}

theorem inherited {shard : LRUCache V D} (inherits : Inherits (cache.shards i) shard)
    (present : ((cache.setShard i shard).shards handle.shard).handles handle.e = some record) :
    ∃ old, (cache.shards handle.shard).handles handle.e = some old ∧ old.payload = record.payload := by
  change (Function.update cache.shards i shard handle.shard).handles handle.e = _ at present
  by_cases here : handle.shard = i
  · rw [here, Function.update_self] at present
    rw [here]
    exact inherits.handles _ _ present
  · rw [Function.update_of_ne here] at present
    exact ⟨record, present, rfl⟩

theorem inherited_lookup {key : Key} {found : Option Handle} {after : ShardedLRUCache V D}
    (returned : cache.lookup key = some (after, found))
    (present : (after.shards handle.shard).handles handle.e = some record) :
    ∃ old, (cache.shards handle.shard).handles handle.e = some old ∧ old.payload = record.payload := by
  obtain ⟨⟨shard, e⟩, looked, same⟩ := Option.bind_eq_some_iff.mp returned
  cases same
  exact inherited (Inherits.lookup looked) present

theorem inherited_erase {key : Key} {after : ShardedLRUCache V D} (returned : cache.erase key = some after)
    (present : (after.shards handle.shard).handles handle.e = some record) :
    ∃ old, (cache.shards handle.shard).handles handle.e = some old ∧ old.payload = record.payload := by
  obtain ⟨shard, erased, same⟩ := Option.bind_eq_some_iff.mp returned
  cases same
  exact inherited (Inherits.erase erased) present

theorem inherited_release {released : Handle} {after : ShardedLRUCache V D} (returned : cache.release released = some after)
    (present : (after.shards handle.shard).handles handle.e = some record) :
    ∃ old, (cache.shards handle.shard).handles handle.e = some old ∧ old.payload = record.payload := by
  obtain ⟨_, _, rest⟩ := Option.bind_eq_some_iff.mp returned
  obtain ⟨_, _, rest⟩ := Option.bind_eq_some_iff.mp rest
  obtain ⟨shard, unreferenced, same⟩ := Option.bind_eq_some_iff.mp rest
  cases same
  exact inherited (Inherits.unref unreferenced) present

theorem inherited_insert {key : Key} {value : V} {charge : UInt64} {deleter : D} {inserted : Handle}
    {after : ShardedLRUCache V D} (returned : cache.insert key value charge deleter = some (after, inserted))
    (present : (after.shards handle.shard).handles handle.e = some record) (different : handle ≠ inserted) :
    ∃ old, (cache.shards handle.shard).handles handle.e = some old ∧ old.payload = record.payload := by
  obtain ⟨⟨shard, e⟩, inserting, same⟩ := Option.bind_eq_some_iff.mp returned
  cases same
  obtain ⟨rfl, inherits⟩ := Inherits.insert inserting
  obtain ⟨j, e⟩ := handle
  change (Function.update cache.shards (cache.shard (hashSv key)) shard j).handles e = _ at present
  by_cases here : j = cache.shard (hashSv key)
  · subst here
    rw [Function.update_self] at present
    obtain ⟨old, found, payload⟩ := inherits.handles _ _ present
    let target := cache.shards (cache.shard (hashSv key))
    change Function.update target.handles target.allocated _ _ = _ at found
    have earlier : e ≠ target.allocated := by
      rintro rfl
      exact different rfl
    rw [Function.update_of_ne earlier] at found
    exact ⟨old, found, payload⟩
  · rw [Function.update_of_ne here] at present
    exact ⟨record, present, rfl⟩

/-- The handle that an insertion returns carries the key. -/
theorem insert_key {key : Key} {value : V} {charge : UInt64} {deleter : D} {inserted : Handle}
    {after : ShardedLRUCache V D} (returned : cache.insert key value charge deleter = some (after, inserted))
    (present : (after.shards inserted.shard).handles inserted.e = some record) : record.key = key := by
  obtain ⟨⟨shard, e⟩, inserting, same⟩ := Option.bind_eq_some_iff.mp returned
  cases same
  obtain ⟨rfl, inherits⟩ := Inherits.insert inserting
  let i := cache.shard (hashSv key)
  change (Function.update cache.shards i shard i).handles (cache.shards i).allocated = _ at present
  rw [Function.update_self] at present
  obtain ⟨old, found, payload⟩ := inherits.handles _ _ present
  change Function.update (cache.shards i).handles (cache.shards i).allocated _ (cache.shards i).allocated = _ at found
  rw [Function.update_self] at found
  cases found
  simp only [LRUHandle.payload, Prod.mk.injEq] at payload
  exact payload.2.2.2.1.symm

/-- An insertion does not return a handle that is still out. -/
theorem insert_fresh (tidy : Tidy fits clients) {key : Key} {value : V} {charge : UInt64} {deleter : D} {inserted : Handle}
    {after : ShardedLRUCache V D} (returned : clients.cache.insert key value charge deleter = some (after, inserted)) :
    inserted ∉ clients.held := by
  intro holding
  obtain ⟨record, present⟩ := tidy.live holding
  obtain ⟨⟨shard, e⟩, inserting, same⟩ := Option.bind_eq_some_iff.mp returned
  cases same
  obtain ⟨rfl, _⟩ := Inherits.insert inserting
  obtain ⟨history, lru, inUse, order⟩ := tidy.ordered (clients.cache.shard (hashSv key))
  have absent := order.sound.unused_allocated.1
  exact absurd (absent.symm.trans present) (by simp)

end Inheritance

/-- An entry is in the shard of its key. -/
theorem home (tidy : Tidy fits clients) {handle : Handle} {key : Key} (stored : Stored clients.cache handle key) :
    handle.shard = clients.cache.shardOf key := by
  obtain ⟨record, present, same⟩ := Option.map_eq_some_iff.mp stored.2
  obtain ⟨hashed, home, _⟩ := tidy.routed present
  rw [ShardedLRUCache.shardOf, ← same, ← hashed, home]

theorem only (tidy : Tidy fits clients) {left right : Handle} {key : Key} (first : Stored clients.cache left key)
    (second : Stored clients.cache right key) : left = right := by
  have shard := (tidy.home first).trans (tidy.home second).symm
  obtain ⟨i, e⟩ := left
  obtain ⟨j, f⟩ := right
  cases shard
  obtain ⟨history, lru, inUse, order⟩ := tidy.ordered i
  have same := order.sound.only (order.sound.mem_cached.mp first.1) (order.sound.mem_cached.mp second.1)
    (first.2.trans second.2.symm)
  cases same
  rfl

theorem found (tidy : Tidy fits clients) {key : Key} (counted : (Request.lookup key : Request V D).Counted clients) :
    ∃ after found, clients.cache.lookup key = some (after, found) ∧
      ∀ handle, found = some handle ↔ Stored clients.cache handle key := by
  obtain ⟨history, lru, inUse, order⟩ := tidy.ordered (clients.cache.shardOf key)
  have few : ∀ e ∈ lru ++ inUse, keyOf (clients.cache.shards (clients.cache.shardOf key)).handles e = some key →
      (clients.heldOf (clients.cache.shardOf key)).count e + 2 < 2 ^ 32 :=
    fun e member => counted e (order.sound.mem_cached.mpr member)
  rcases order.sound.lookup key few with ⟨absent, shard, computed, _⟩ | ⟨e, member, shard, _, keyed, computed, _⟩
  · change ((clients.cache.shards (clients.cache.shard (hashSv key))).lookup key (hashSv key)) = _ at computed
    refine ⟨_, none, by rw [ShardedLRUCache.lookup, computed]; rfl, fun handle => ⟨fun found => (by cases found), ?_⟩⟩
    intro stored
    have home := tidy.home stored
    obtain ⟨inside, keyed⟩ := stored
    rw [home] at inside keyed
    exact absurd keyed (absent handle.e (order.sound.mem_cached.mp inside))
  · change ((clients.cache.shards (clients.cache.shard (hashSv key))).lookup key (hashSv key)) = _ at computed
    have stored : Stored clients.cache ⟨clients.cache.shardOf key, e⟩ key :=
      ⟨order.sound.mem_cached.mpr member, keyed⟩
    refine ⟨_, some ⟨clients.cache.shardOf key, e⟩, by rw [ShardedLRUCache.lookup, computed]; rfl, fun handle => ?_⟩
    rw [Option.some.injEq]
    constructor
    · rintro rfl
      exact stored
    · exact tidy.only stored

theorem deletions (tidy : Tidy fits clients) {e : Nat} (old : e < (clients.cache.shards i).allocated) :
    (clients.cache.shards i).deletions e =
      if e ∈ (clients.cache.shards i).cached ∨ Handle.mk i e ∈ clients.held then 0 else 1 := by
  obtain ⟨history, lru, inUse, order⟩ := tidy.ordered i
  have holders : e ∈ clients.heldOf i ↔ Handle.mk i e ∈ clients.held := by
    constructor
    · intro member
      obtain ⟨⟨shard, address⟩, holding, same⟩ := List.mem_filterMap.mp member
      split at same
      · rename_i here
        cases here
        cases same
        exact holding
      · cases same
    · exact mem_heldOf
  exact (order.deleted old).trans (if_congr (or_congr Iff.rfl holders) rfl rfl)

theorem destroy (tidy : Tidy fits clients) (released : clients.held = []) :
    ∃ after, clients.cache.destroy = some after ∧ ∀ i < clients.cache.numShards.toNat,
      ∀ e < (clients.cache.shards i).allocated, (after.shards i).deletions e = 1 := by
  have destroyed : ∀ i, ∃ shard, (clients.cache.shards i).destroy = some shard ∧
      ∀ e < (clients.cache.shards i).allocated, shard.deletions e = 1 := by
    intro i
    obtain ⟨history, lru, inUse, order⟩ := tidy.ordered i
    have sound : Sound hashSv (clients.cache.shards i) (clients.heldOf i) lru inUse := order.sound
    rw [Clients.heldOf, released] at sound
    exact sound.destroy
  obtain ⟨after, computed, _, inside, _⟩ :=
    eachShard_returns (List.nodup_reverse.mpr (List.nodup_range (n := clients.cache.numShards.toNat))) clients.cache
      fun i _ => by
        obtain ⟨shard, destroying, _⟩ := destroyed i
        exact ⟨shard, destroying⟩
  refine ⟨after, computed, fun i few e old => ?_⟩
  obtain ⟨shard, destroying, deleted⟩ := destroyed i
  have same := inside i (List.mem_reverse.mpr (List.mem_range.mpr few))
  rw [destroying] at same
  cases same
  exact deleted e old

theorem usage (tidy : Tidy fits clients) (i : Nat) : (clients.cache.shards i).usage.toNat =
    charges (clients.cache.shards i).handles (clients.cache.shards i).cached % 2 ^ 64 := by
  obtain ⟨history, lru, inUse, order⟩ := tidy.ordered i
  have usage : (clients.cache.shards i).usage = total (clients.cache.shards i).handles (lru ++ inUse) :=
    order.sound.usage
  rw [usage, total_toNat]
  exact congrArg (· % 2 ^ 64) (Sound.charges_perm order.sound.cached_perm).symm

theorem totalCharge (tidy : Tidy fits clients) : clients.cache.totalCharge.toNat =
    ((List.range clients.cache.numShards.toNat).map fun i =>
      charges (clients.cache.shards i).handles (clients.cache.shards i).cached).sum % 2 ^ 64 := by
  have sums : ∀ (shards : List Nat) (total : UInt64) (sum : Nat), total.toNat = sum % 2 ^ 64 →
      (shards.foldl (fun total i => total + (clients.cache.shards i).usage) total).toNat =
        (sum + (shards.map fun i => charges (clients.cache.shards i).handles (clients.cache.shards i).cached).sum) %
          2 ^ 64 := by
    intro shards
    induction shards with
    | nil => exact fun total sum same => same
    | cons first rest ih =>
      intro total sum same
      rw [List.foldl_cons, ih _ (sum + charges (clients.cache.shards first).handles (clients.cache.shards first).cached),
        List.map_cons, List.sum_cons, Nat.add_assoc]
      rw [UInt64.toNat_add, same, tidy.usage first, Nat.add_mod_mod, Nat.mod_add_mod]
  have whole := sums (List.range clients.cache.numShards.toNat) 0 0 rfl
  rwa [Nat.zero_add] at whole

end Tidy

theorem Serves.tidy {capacity numShards : UInt64} {clients : Clients V D} (served : Serves capacity numShards clients) :
    Tidy (fun _ _ => True) clients := by
  induction served with
  | new created => exact .new created
  | @request _ _ request _ permitted counted returned ih =>
    obtain ⟨after, computed, kept⟩ := ih.request permitted counted (by cases request <;> trivial)
    cases computed.symm.trans returned
    exact kept

/-- Whatever requests came before: every further one returns; a lookup finds the one entry
of its key in all shards; what clients hold is still there and goes back to its own shard;
every entry is deleted once, after it has left the cache and its last handle was released;
the charges add up; and the cache can be destroyed once everything has been released. -/
theorem sharded_cache_serves {capacity numShards : UInt64} {clients : Clients V D}
    (served : Serves capacity numShards clients) :
    (∀ request : Request V D, request.Permitted clients → request.Counted clients →
        ∃ after, clients.request request = some after) ∧
      (∀ key, (Request.lookup key : Request V D).Counted clients → ∃ after found,
        clients.cache.lookup key = some (after, found) ∧
          ∀ handle, found = some handle ↔ Stored clients.cache handle key) ∧
      (∀ handle ∈ clients.held, ∃ record, (clients.cache.shards handle.shard).handles handle.e = some record ∧
        clients.cache.shard record.hash = handle.shard) ∧
      (∀ i, ∀ e < (clients.cache.shards i).allocated, (clients.cache.shards i).deletions e =
        if e ∈ (clients.cache.shards i).cached ∨ Handle.mk i e ∈ clients.held then 0 else 1) ∧
      clients.cache.totalCharge.toNat = ((List.range clients.cache.numShards.toNat).map fun i =>
        charges (clients.cache.shards i).handles (clients.cache.shards i).cached).sum % 2 ^ 64 ∧
      (clients.held = [] → ∃ after, clients.cache.destroy = some after ∧ ∀ i < clients.cache.numShards.toNat,
        ∀ e < (clients.cache.shards i).allocated, (after.shards i).deletions e = 1) := by
  have tidy : Tidy (fun _ _ => True) clients := served.tidy
  refine ⟨?_, fun key counted => tidy.found counted, ?_, fun i e old => tidy.deletions old, tidy.totalCharge,
    tidy.destroy⟩
  · intro request permitted counted
    obtain ⟨after, returned, _⟩ := tidy.request permitted counted (by cases request <;> trivial)
    exact ⟨after, returned⟩
  · intro handle holding
    obtain ⟨record, present⟩ := tidy.live holding
    exact ⟨record, present, (tidy.routed present).2.1⟩

/-- A handle to an entry that was replaced goes back to its shard. -/
theorem sharded_cache_serves_replaced :
    ∃ clients : Clients Unit Unit, Clients.run ⟨⟨2, fun _ => .new 2, 0⟩, []⟩ [.insert [1] () 1 (), .insert [1] () 1 ()] =
        some clients ∧ clients.held = [⟨0, 1⟩, ⟨0, 0⟩] ∧ ∃ after, clients.request (.release ⟨0, 0⟩) = some after := by
  have summary : (Clients.run ⟨⟨2, fun _ => .new 2, 0⟩, []⟩ [.insert [1] () 1 (), .insert [1] () 1 ()] :
      Option (Clients Unit Unit)).map Clients.held = some [⟨0, 1⟩, ⟨0, 0⟩] := by decide
  obtain ⟨clients, returned, held⟩ := Option.map_eq_some_iff.mp summary
  have served : Serves 4 2 clients := (Serves.new rfl).run returned
  have holding : (Request.release ⟨0, 0⟩ : Request Unit Unit).Permitted clients := by
    change _ ∈ clients.held
    simp [held]
  exact ⟨clients, returned, held, (sharded_cache_serves served).1 (.release ⟨0, 0⟩) holding trivial⟩

end Cache

end Enigma
