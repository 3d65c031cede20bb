import Enigma.Cache.Operations
import Mathlib.Algebra.Order.BigOperators.Group.List

/-! Clients of the cache: the calls they make, the handles they have not released yet,
and what has happened so far. -/

namespace Enigma

namespace Cache

variable {V D : Type}

inductive Call (V D : Type) where
  | insert (key : Key) (value : V) (charge : UInt64) (deleter : D)
  | lookup (key : Key)
  | release (e : Nat)
  | erase (key : Key)
  | prune

inductive Event where
  | inserted (key : Key) (e : Nat) (evicted : List Nat)
  | lookedUp
  | released (e : Nat)
  | erased (key : Key)
  | pruned (removed : List Nat)
  deriving DecidableEq

/-- The history is newest first. -/
structure Session (V D : Type) where
  cache : LRUCache V D
  held : List Nat
  history : List Event

/-- The entries whose flag says that they are in the cache. -/
def LRUCache.cached (cache : LRUCache V D) : List Nat :=
  (List.range cache.allocated).filter fun e => (cache.handles e).any LRUHandle.inCache

def departed (before after : LRUCache V D) : List Nat := before.cached.filter (· ∉ after.cached)

namespace Session

def new (capacity : UInt64) : Session V D := ⟨.new capacity, [], []⟩

/-- An insertion evicts what leaves the cache, apart from the entry that it replaces. -/
def call (hashOf : Key → Nat) (session : Session V D) : Call V D → Option (Session V D)
  | .insert key value charge deleter => do
    let (cache, e) ← session.cache.insert key (hashOf key) value charge deleter
    let evicted := Sound.others session.cache.handles key (departed session.cache cache)
    return ⟨cache, e :: session.held, .inserted key e evicted :: session.history⟩
  | .lookup key => do
    let (cache, found) ← session.cache.lookup key (hashOf key)
    return ⟨cache, found.toList ++ session.held, .lookedUp :: session.history⟩
  | .release e => do
    return ⟨← session.cache.release e, session.held.erase e, .released e :: session.history⟩
  | .erase key => do
    return ⟨← session.cache.erase key (hashOf key), session.held, .erased key :: session.history⟩
  | .prune => do
    let cache ← session.cache.prune
    return ⟨cache, session.held, .pruned (departed session.cache cache) :: session.history⟩

end Session

/-- Clients release only what they hold. -/
def Call.Permitted (session : Session V D) : Call V D → Prop
  | .release e => e ∈ session.held
  | _ => True

/-- The sessions that calls within some bounds lead to. -/
inductive Reached (hashOf : Key → Nat) (within : Session V D → Call V D → Prop) (capacity : UInt64) :
    Session V D → Prop
  | new : Reached hashOf within capacity (.new capacity)
  | call {session after : Session V D} {call : Call V D} (earlier : Reached hashOf within capacity session)
      (permitted : call.Permitted session) (bounds : within session call)
      (returned : session.call hashOf call = some after) : Reached hashOf within capacity after

/-- The entry last inserted for a key, unless it was erased, pruned or evicted since. -/
def lastInserted (key : Key) : List Event → Option Nat
  | [] => none
  | .inserted other e evicted :: past => if other = key then some e else (lastInserted key past).filter (· ∉ evicted)
  | .erased other :: past => if other = key then none else lastInserted key past
  | .pruned removed :: past => (lastInserted key past).filter (· ∉ removed)
  | .lookedUp :: past => lastInserted key past
  | .released _ :: past => lastInserted key past

/-- The last handle to one entry was released before the last handle to another one. -/
def ReleasedBefore (history : List Event) (older newer : Nat) : Prop :=
  history.idxOf (.released newer) < history.idxOf (.released older)

/-- No counter of the cache overflows: references to one entry and elements of the table
are counted in 32 bits, and the table stops growing at half of that. -/
def Call.Counted (session : Session V D) : Call V D → Prop
  | .insert key _ _ _ => session.cache.capacity = 0 ∨
      (∃ e ∈ session.cache.cached, keyOf session.cache.handles e = some key) ∨ session.cache.cached.length < 2 ^ 31
  | .lookup key => ∀ e ∈ session.cache.cached, keyOf session.cache.handles e = some key →
      session.held.count e + 2 < 2 ^ 32
  | _ => True

instance instDecidablePermitted (session : Session V D) : (call : Call V D) → Decidable (call.Permitted session)
  | .release e => inferInstanceAs (Decidable (e ∈ session.held))
  | .insert _ _ _ _ => .isTrue trivial
  | .lookup _ => .isTrue trivial
  | .erase _ => .isTrue trivial
  | .prune => .isTrue trivial

instance instDecidableCounted (session : Session V D) : (call : Call V D) → Decidable (call.Counted session)
  | .insert key _ _ _ => inferInstanceAs (Decidable (session.cache.capacity = 0 ∨
      (∃ e ∈ session.cache.cached, keyOf session.cache.handles e = some key) ∨ session.cache.cached.length < 2 ^ 31))
  | .lookup key => inferInstanceAs (Decidable (∀ e ∈ session.cache.cached, keyOf session.cache.handles e = some key →
      session.held.count e + 2 < 2 ^ 32))
  | .release _ => .isTrue trivial
  | .erase _ => .isTrue trivial
  | .prune => .isTrue trivial

/-- A run of calls that checks the bounds before each of them. -/
def Session.run (hashOf : Key → Nat) (within : Session V D → Call V D → Prop)
    [∀ session call, Decidable (within session call)] (session : Session V D) : List (Call V D) → Option (Session V D)
  | [] => some session
  | call :: later =>
    if call.Permitted session ∧ within session call then do
      (← session.call hashOf call).run hashOf within later
    else none

theorem Reached.run {hashOf : Key → Nat} {within : Session V D → Call V D → Prop}
    [∀ session call, Decidable (within session call)] {capacity : UInt64} {session after : Session V D}
    (reached : Reached hashOf within capacity session) {calls : List (Call V D)}
    (returned : session.run hashOf within calls = some after) : Reached hashOf within capacity after := by
  induction calls generalizing session with
  | nil => exact Option.some_inj.mp returned ▸ reached
  | cons call later ih =>
    rw [Session.run] at returned
    split at returned
    · rename_i allowed
      obtain ⟨next, stepped, rest⟩ := Option.bind_eq_some_iff.mp returned
      exact ih (reached.call allowed.1 allowed.2 stepped) rest
    · cases returned

/-- The charges of some entries, as numbers. -/
def charges (handles : Handles V D) (entries : List Nat) : Nat := (entries.map fun e => (chargeOf handles e).toNat).sum

/-- What the entries in the cache may be charged together once a call has returned. -/
def Call.chargesAfter (session : Session V D) : Call V D → Nat
  | .insert key _ charge _ =>
    charge.toNat + charges session.cache.handles (Sound.others session.cache.handles key session.cache.cached)
  | _ => charges session.cache.handles session.cache.cached

namespace Sound

variable {hashOf : Key → Nat} {cache after : LRUCache V D} {held lru inUse lruAfter inUseAfter heldAfter : List Nat}
  {e : Nat}

theorem mem_cached (sound : Sound hashOf cache held lru inUse) : e ∈ cache.cached ↔ e ∈ lru ++ inUse := by
  rw [LRUCache.cached, List.mem_filter, List.mem_range]
  cases sound.settled e with
  | unused absent fresh _ unlisted => simp [absent, unlisted]
  | busy present old cached _ _ _ listed => simp [present, old, cached, listed]
  | idle present old cached _ _ listed => simp [present, old, cached, listed]
  | detached present old cached _ _ unlisted => simp [present, cached, unlisted]
  | deleted absent _ _ unlisted => simp [absent, unlisted]

theorem cached_perm (sound : Sound hashOf cache held lru inUse) : cache.cached.Perm (lru ++ inUse) :=
  (List.perm_ext_iff_of_nodup (List.nodup_range.filter _) sound.listed.distinct).mpr fun _ => sound.mem_cached

theorem mem_departed (sound : Sound hashOf cache held lru inUse)
    (later : Sound hashOf after heldAfter lruAfter inUseAfter) :
    e ∈ departed cache after ↔ e ∈ lru ++ inUse ∧ e ∉ lruAfter ++ inUseAfter := by
  simp [departed, sound.mem_cached, later.mem_cached]

theorem charges_perm {handles : Handles V D} {left right : List Nat} (perm : left.Perm right) :
    charges handles left = charges handles right := (perm.map _).sum_eq

theorem charges_le_of_subset {handles : Handles V D} {fewer entries : List Nat} (distinct : fewer.Nodup)
    (inside : fewer ⊆ entries) : charges handles fewer ≤ charges handles entries := by
  obtain ⟨rearranged, perm, sublist⟩ := distinct.subperm inside
  rw [← charges_perm perm]
  exact (sublist.map _).sum_le_sum (by simp)

/-- Entries that stay are charged as before. -/
theorem charges_le (sound : Sound hashOf cache held lru inUse)
    (later : Sound hashOf after heldAfter lruAfter inUseAfter) (inside : lruAfter ++ inUseAfter ⊆ lru ++ inUse)
    (frame : Frame cache after (lruAfter ++ inUseAfter)) :
    charges after.handles after.cached ≤ charges cache.handles cache.cached := by
  have same : charges after.handles (lruAfter ++ inUseAfter) = charges cache.handles (lruAfter ++ inUseAfter) :=
    congrArg List.sum (List.map_congr_left fun e member => congrArg UInt64.toNat (frame.chargeOf member))
  rw [charges_perm later.cached_perm, charges_perm sound.cached_perm, same]
  exact charges_le_of_subset later.listed.distinct inside

section Insert

variable {handle : LRUHandle V D} {entries busy : List Nat}

/-- After an insertion only the new entry has its key, and the others are old ones. -/
theorem mem_insert (frame : Frame (cache.malloc handle) after (entries ++ (busy ++ [cache.allocated])))
    (inside : entries ++ busy ⊆ others cache.handles handle.key (lru ++ inUse))
    (member : e ∈ entries ++ (busy ++ [cache.allocated])) :
    e = cache.allocated ∧ keyOf after.handles e = some handle.key ∨
      e ∈ lru ++ inUse ∧ keyOf after.handles e = keyOf cache.handles e ∧ keyOf cache.handles e ≠ some handle.key := by
  have named := frame.sameKeys.keyOf member
  by_cases new : e = cache.allocated
  · subst new
    exact .inl ⟨rfl, named.trans (by simp [keyOf, LRUCache.malloc, LRUCache.setHandle])⟩
  · have old : e ∈ entries ++ busy := by simpa [new] using member
    have kept := List.mem_filter.mp (inside old)
    refine .inr ⟨kept.1, named.trans ?_, by simpa using kept.2⟩
    simp [keyOf, LRUCache.malloc, LRUCache.setHandle, Function.update_of_ne new]

theorem charges_insert (sound : Sound hashOf cache held lru inUse)
    (later : Sound hashOf after heldAfter entries (busy ++ [cache.allocated]))
    (frame : Frame (cache.malloc handle) after (entries ++ (busy ++ [cache.allocated])))
    (inside : entries ++ busy ⊆ others cache.handles handle.key (lru ++ inUse)) :
    charges after.handles after.cached ≤
      handle.charge.toNat + charges cache.handles (others cache.handles handle.key cache.cached) := by
  obtain ⟨-, -, unlisted, -⟩ := sound.toKept.unused_allocated
  have perm : (entries ++ (busy ++ [cache.allocated])).Perm (cache.allocated :: (entries ++ busy)) := by
    rw [← List.append_assoc]
    exact List.perm_append_singleton ..
  have distinct := perm.nodup_iff.mp later.listed.distinct
  have new : chargeOf after.handles cache.allocated = handle.charge := by
    rw [frame.chargeOf (by simp)]
    simp [chargeOf, LRUCache.malloc, LRUCache.setHandle]
  have old : charges after.handles (entries ++ busy) = charges cache.handles (entries ++ busy) := by
    refine congrArg List.sum (List.map_congr_left fun e member => congrArg UInt64.toNat ?_)
    have different : e ≠ cache.allocated := fun same => (List.nodup_cons.mp distinct).1 (same ▸ member)
    rw [frame.chargeOf (perm.mem_iff.mpr (List.mem_cons_of_mem _ member))]
    simp [chargeOf, LRUCache.malloc, LRUCache.setHandle, Function.update_of_ne different]
  have fewer : entries ++ busy ⊆ others cache.handles handle.key cache.cached := fun e member => by
    obtain ⟨stored, different⟩ := List.mem_filter.mp (inside member)
    exact List.mem_filter.mpr ⟨sound.mem_cached.mpr stored, different⟩
  have total : charges after.handles (cache.allocated :: (entries ++ busy)) =
      handle.charge.toNat + charges cache.handles (entries ++ busy) := by
    rw [← old, ← new]
    exact List.sum_cons
  rw [charges_perm (later.cached_perm.trans perm), total]
  exact Nat.add_le_add_left (charges_le_of_subset (List.nodup_cons.mp distinct).2 fewer) _

end Insert

end Sound

theorem releasedBefore_cons {history : List Event} {event : Event} {older newer : Nat} (first : event ≠ .released older)
    (second : event ≠ .released newer) :
    ReleasedBefore (event :: history) older newer ↔ ReleasedBefore history older newer := by
  simp [ReleasedBefore, List.idxOf_cons_ne _ first, List.idxOf_cons_ne _ second]

theorem releasedBefore_now {history : List Event} {older newer : Nat} (different : older ≠ newer) :
    ReleasedBefore (.released newer :: history) older newer := by
  have apart : Event.released newer ≠ .released older := fun same => different (Event.released.inj same).symm
  simp [ReleasedBefore, List.idxOf_cons_ne _ apart]

namespace Session

/-- The books of the cache together with what its history says about them. -/
structure InOrder (hashOf : Key → Nat) (session : Session V D) (lru inUse : List Nat) : Prop where
  sound : Sound hashOf session.cache session.held lru inUse
  recent : session.cache.capacity ≠ 0 → ∀ key e, lastInserted key session.history = some e ↔
    e ∈ lru ++ inUse ∧ keyOf session.cache.handles e = some key
  bypassed : session.cache.capacity = 0 → lru ++ inUse = []
  released : ∀ e ∈ lru, Event.released e ∈ session.history
  ordered : lru.Pairwise (ReleasedBefore session.history)

variable {hashOf : Key → Nat} {session : Session V D} {lru inUse lruAfter inUseAfter : List Nat} {e : Nat}

theorem inOrder_new (capacity : UInt64) : InOrder hashOf (Session.new capacity : Session V D) [] [] where
  sound := {
    listed := ⟨Links.ring_empty rfl rfl, Links.ring_empty rfl rfl, by simp⟩
    settled := fun e => .unused rfl (Nat.zero_le e) rfl (by simp) rfl
    usage := rfl
    stored := HashMap.holds_new _ }
  recent := by simp [lastInserted, Session.new]
  bypassed := fun _ => rfl
  released := by simp
  ordered := .nil

/-- A call that keeps every entry where it is found. -/
theorem InOrder.keeps (order : InOrder hashOf session lru inUse) {cache : LRUCache V D} {held : List Nat}
    {event : Event} (sound : Sound hashOf cache held lruAfter inUseAfter)
    (perm : (lruAfter ++ inUseAfter).Perm (lru ++ inUse))
    (frame : Frame session.cache cache (lru ++ inUse))
    (silent : ∀ key, lastInserted key (event :: session.history) = lastInserted key session.history)
    (released : ∀ e ∈ lruAfter, Event.released e ∈ event :: session.history)
    (ordered : lruAfter.Pairwise (ReleasedBefore (event :: session.history))) :
    InOrder hashOf ⟨cache, held, event :: session.history⟩ lruAfter inUseAfter where
  sound := sound
  recent := fun positive key e => by
    rw [silent, order.recent (frame.capacity ▸ positive) key e, perm.mem_iff]
    refine and_congr_right fun member => ?_
    rw [frame.sameKeys.keyOf member]
  bypassed := fun zero => by
    have empty := order.bypassed (frame.capacity ▸ zero)
    exact List.Perm.eq_nil (empty ▸ perm)
  released := released
  ordered := ordered

theorem InOrder.ordered_quietly (order : InOrder hashOf session lru inUse) (sublist : lruAfter.Sublist lru)
    {event : Event} (quiet : ∀ e ∈ lru, event ≠ .released e) :
    lruAfter.Pairwise (ReleasedBefore (event :: session.history)) := by
  refine (order.ordered.sublist sublist).imp_of_mem fun older newer before => ?_
  exact (releasedBefore_cons (quiet _ (sublist.subset older)) (quiet _ (sublist.subset newer))).mpr before

/-- A call that takes entries out of the cache. -/
theorem InOrder.loses (order : InOrder hashOf session lru inUse) {cache : LRUCache V D} {held : List Nat}
    {event : Event} (sound : Sound hashOf cache held lruAfter inUseAfter) (sublist : lruAfter.Sublist lru)
    (inside : lruAfter ++ inUseAfter ⊆ lru ++ inUse) (frame : Frame session.cache cache (lruAfter ++ inUseAfter))
    (quiet : ∀ e, event ≠ .released e)
    (recent : session.cache.capacity ≠ 0 → ∀ key e, lastInserted key (event :: session.history) = some e ↔
      lastInserted key session.history = some e ∧ e ∈ lruAfter ++ inUseAfter) :
    InOrder hashOf ⟨cache, held, event :: session.history⟩ lruAfter inUseAfter where
  sound := sound
  recent := fun positive key e => by
    have nonzero : session.cache.capacity ≠ 0 := frame.capacity ▸ positive
    rw [recent nonzero, order.recent nonzero]
    constructor
    · rintro ⟨⟨-, keyed⟩, member⟩
      exact ⟨member, (frame.sameKeys.keyOf member).trans keyed⟩
    · rintro ⟨member, keyed⟩
      exact ⟨⟨inside member, (frame.sameKeys.keyOf member).symm.trans keyed⟩, member⟩
  bypassed := fun zero => by
    have empty := order.bypassed (frame.capacity ▸ zero)
    exact List.subset_nil.mp (empty ▸ inside)
  released := fun e member => List.mem_cons_of_mem _ (order.released e (sublist.subset member))
  ordered := order.ordered_quietly sublist fun e _ => quiet e

/-- What a call does to the sizes. -/
structure Carried (session : Session V D) (call : Call V D) (after : Session V D) : Prop where
  capacity : after.cache.capacity = session.cache.capacity
  charges : charges after.cache.handles after.cache.cached ≤ call.chargesAfter session

theorem InOrder.lookup (order : InOrder hashOf session lru inUse) (key : Key)
    (bounds : (Call.lookup key : Call V D).Counted session) :
    ∃ after lruAfter inUseAfter, session.call hashOf (.lookup key) = some after ∧
      InOrder hashOf after lruAfter inUseAfter ∧ Carried session (.lookup key) after := by
  have fits : ∀ e ∈ lru ++ inUse, keyOf session.cache.handles e = some key → session.held.count e + 2 < 2 ^ 32 :=
    fun e member => bounds e (order.sound.mem_cached.mpr member)
  rcases order.sound.lookup key fits with
    ⟨-, cache, computed, sound, frame⟩ | ⟨e, member, cache, inUseAfter, -, computed, sound, perm, frame⟩
  · have charges := order.sound.charges_le sound (List.Subset.refl _) frame
    refine ⟨⟨cache, session.held, .lookedUp :: session.history⟩, lru, inUse, ?_, ?_, frame.capacity, charges⟩
    · simp [Session.call, computed]
    · exact order.keeps sound (.refl _) frame (fun _ => rfl)
        (fun e member => List.mem_cons_of_mem _ (order.released e member))
        (order.ordered_quietly (.refl _) fun _ _ => Event.noConfusion)
  · have charges := order.sound.charges_le sound perm.subset (frame.trans (.refl _ _) perm.subset)
    refine ⟨⟨cache, e :: session.held, .lookedUp :: session.history⟩, lru.erase e, inUseAfter, ?_, ?_,
      frame.capacity, charges⟩
    · simp [Session.call, computed]
    · exact order.keeps sound perm frame (fun _ => rfl)
        (fun e member => List.mem_cons_of_mem _ (order.released e (List.mem_of_mem_erase member)))
        (order.ordered_quietly (List.erase_sublist ..) fun _ _ => Event.noConfusion)

theorem InOrder.release (order : InOrder hashOf session lru inUse) (holding : e ∈ session.held) :
    ∃ after lruAfter inUseAfter, session.call hashOf (.release e) = some after ∧
      InOrder hashOf after lruAfter inUseAfter ∧ Carried session (.release e) after := by
  have positive : 0 < session.held.count e := List.count_pos_iff.mpr holding
  obtain ⟨cache, inUseAfter, computed, sound, perm, frame⟩ := order.sound.release positive
  have fresh : e ∉ lru := by
    intro member
    cases order.sound.settled e with
    | unused _ _ _ unlisted => exact unlisted (List.mem_append_left inUse member)
    | busy _ _ _ _ _ otherwise => exact otherwise member
    | idle _ _ _ _ released => omega
    | detached _ _ _ _ _ unlisted => exact unlisted (List.mem_append_left inUse member)
    | deleted _ _ _ unlisted => exact unlisted (List.mem_append_left inUse member)
  have quiet : ∀ other ∈ lru, Event.released e ≠ .released other := fun other member same =>
    fresh (Event.released.inj same ▸ member)
  have earlier := order.ordered_quietly (.refl lru) quiet
  have remembered : ∀ other ∈ lru, Event.released other ∈ .released e :: session.history := fun other member =>
    List.mem_cons_of_mem _ (order.released other member)
  have charges := order.sound.charges_le sound perm.subset (frame.trans (.refl _ _) perm.subset)
  refine ⟨⟨cache, session.held.erase e, .released e :: session.history⟩, _, inUseAfter, ?_,
    order.keeps sound perm frame (fun _ => rfl) ?_ ?_, frame.capacity, charges⟩
  · simp [Session.call, computed]
  · split
    · intro other member
      rcases List.mem_append.mp member with old | last
      · exact remembered other old
      · rw [List.mem_singleton.mp last]
        exact List.mem_cons_self ..
    · exact remembered
  · split
    · refine List.pairwise_append.mpr ⟨earlier, List.pairwise_singleton .., ?_⟩
      intro other member last same
      rw [List.mem_singleton.mp same]
      exact releasedBefore_now fun equal => fresh (equal ▸ member)
    · exact earlier

theorem InOrder.erase (order : InOrder hashOf session lru inUse) (key : Key) :
    ∃ after lruAfter inUseAfter, session.call hashOf (.erase key) = some after ∧
      InOrder hashOf after lruAfter inUseAfter ∧ Carried session (.erase key) after := by
  rcases order.sound.eraseKey key with ⟨absent, computed⟩ | ⟨e, member, cache, keyed, computed, sound, frame⟩
  · refine ⟨⟨session.cache, session.held, .erased key :: session.history⟩, lru, inUse, ?_, ?_, rfl, Nat.le_refl _⟩
    · simp [Session.call, LRUCache.erase, computed, LRUCache.countEviction]
    · refine order.loses order.sound (.refl _) (List.Subset.refl _) (.refl _ _) (fun _ => Event.noConfusion) ?_
      intro positive other e
      have recent := order.recent positive other e
      by_cases same : key = other
      · subst same
        simp only [lastInserted, if_true, reduceCtorEq, false_iff]
        exact fun ⟨found, member⟩ => absent e member (recent.mp found).2
      · simp only [lastInserted, if_neg same]
        exact ⟨fun found => ⟨found, (recent.mp found).1⟩, And.left⟩
  · have counted := sound.countEviction true
    have frame := frame.trans (Sound.frame_countEviction cache true _) (List.Subset.refl _)
    have erased : ∀ other, other ∈ lru.erase e ++ inUse.erase e ↔ other ∈ lru ++ inUse ∧ other ≠ e := by
      intro other
      have unlisted := order.sound.unlisted_erase member
      have perm := (order.sound.perm_erase member).mem_iff (a := other)
      rw [List.mem_cons] at perm
      constructor
      · exact fun inside => ⟨perm.mpr (.inr inside), fun same => unlisted (same ▸ inside)⟩
      · exact fun ⟨inside, different⟩ => (perm.mp inside).resolve_left different
    have inside : lru.erase e ++ inUse.erase e ⊆ lru ++ inUse := fun other member => ((erased other).mp member).1
    refine ⟨⟨cache.countEviction true, session.held, .erased key :: session.history⟩, lru.erase e, inUse.erase e,
      ?_, ?_, frame.capacity, order.sound.charges_le counted inside frame⟩
    · simp [Session.call, LRUCache.erase, computed]
    · refine order.loses counted (List.erase_sublist ..) inside frame (fun _ => Event.noConfusion) ?_
      intro positive other found
      have recent := order.recent positive other found
      by_cases same : key = other
      · subst same
        simp only [lastInserted, if_true, reduceCtorEq, false_iff]
        rintro ⟨last, inside⟩
        obtain ⟨stays, different⟩ := (erased found).mp inside
        exact different (order.sound.only stays member ((recent.mp last).2.trans keyed.symm))
      · simp only [lastInserted, if_neg same]
        refine ⟨fun last => ⟨last, (erased found).mpr ⟨(recent.mp last).1, ?_⟩⟩, And.left⟩
        rintro rfl
        exact same (Option.some_inj.mp (keyed.symm.trans (recent.mp last).2))

theorem InOrder.prune (order : InOrder hashOf session lru inUse) :
    ∃ after lruAfter inUseAfter, session.call hashOf .prune = some after ∧
      InOrder hashOf after lruAfter inUseAfter ∧ Carried session .prune after := by
  obtain ⟨cache, computed, sound, frame⟩ := order.sound.prune
  have inside : [] ++ inUse ⊆ lru ++ inUse := List.subset_append_right ..
  refine ⟨⟨cache, session.held, .pruned (departed session.cache cache) :: session.history⟩, [], inUse, ?_, ?_,
    frame.capacity, order.sound.charges_le sound inside frame⟩
  · simp [Session.call, computed]
  · refine order.loses sound (List.nil_sublist _) inside frame (fun _ => Event.noConfusion) ?_
    intro positive key e
    have recent := order.recent positive key e
    simp only [lastInserted, Option.filter_eq_some_iff, order.sound.mem_departed sound, decide_eq_true_eq]
    refine and_congr_right fun last => ?_
    have member := (recent.mp last).1
    tauto

theorem InOrder.insert_bypass (order : InOrder hashOf session lru inUse) (zero : session.cache.capacity = 0) (key : Key)
    (value : V) (charge : UInt64) (deleter : D) :
    ∃ after lruAfter inUseAfter, session.call hashOf (.insert key value charge deleter) = some after ∧
      InOrder hashOf after lruAfter inUseAfter ∧ Carried session (.insert key value charge deleter) after := by
  obtain ⟨rfl, rfl⟩ := List.append_eq_nil_iff.mp (order.bypassed zero)
  obtain ⟨cache, computed, sound, capacity, -⟩ := order.sound.insert_bypass zero key value charge deleter
  have charges : charges cache.handles cache.cached = 0 := by
    rw [Sound.charges_perm sound.cached_perm]
    rfl
  refine ⟨_, [], [], by simp only [Session.call, computed, Option.bind_eq_bind, Option.bind_some]; rfl, ?_,
    capacity.trans zero.symm, charges.trans_le (Nat.zero_le _)⟩
  exact ⟨sound, fun positive => absurd capacity positive, fun _ => rfl, by simp, .nil⟩

theorem InOrder.insert (order : InOrder hashOf session lru inUse) (positive : session.cache.capacity > 0) (key : Key)
    (value : V) (charge : UInt64) (deleter : D)
    (fits : (∃ e ∈ lru ++ inUse, keyOf session.cache.handles e = some key) ∨ (lru ++ inUse).length < 2 ^ 31) :
    ∃ after lruAfter inUseAfter, session.call hashOf (.insert key value charge deleter) = some after ∧
      InOrder hashOf after lruAfter inUseAfter ∧ Carried session (.insert key value charge deleter) after := by
  obtain ⟨cache, count, computed, sound, frame, -⟩ := order.sound.insert positive key value charge deleter fits
  have nonzero : session.cache.capacity ≠ 0 := fun zero => by simp [zero] at positive
  have capacity : cache.capacity = session.cache.capacity := frame.capacity
  obtain ⟨-, -, unlisted, -⟩ := order.sound.unused_allocated
  have sublist : ((Sound.others session.cache.handles key lru).drop count).Sublist lru :=
    (List.drop_sublist ..).trans List.filter_sublist
  have inside : (Sound.others session.cache.handles key lru).drop count ++
      Sound.others session.cache.handles key inUse ⊆ Sound.others session.cache.handles key (lru ++ inUse) := by
    rw [Sound.others, Sound.others, Sound.others, List.filter_append]
    exact ((List.drop_sublist ..).append_right _).subset
  have entries := fun e => Sound.mem_insert (e := e) frame inside
  refine ⟨⟨cache, session.cache.allocated :: session.held, .inserted key session.cache.allocated
    (Sound.others session.cache.handles key (departed session.cache cache)) :: session.history⟩, _, _, ?_,
    ⟨sound, ?_, ?_, ?_, ?_⟩, capacity, ?_⟩
  · simp [Session.call, computed]
  · intro _ other e
    have recent := order.recent nonzero other e
    by_cases same : key = other
    · subst same
      simp only [lastInserted, if_true, Option.some_inj]
      constructor
      · rintro rfl
        have member : session.cache.allocated ∈ (Sound.others session.cache.handles key lru).drop count ++
            (Sound.others session.cache.handles key inUse ++ [session.cache.allocated]) := by simp
        rcases entries _ member with ⟨-, keyed⟩ | ⟨old, -⟩
        · exact ⟨member, keyed⟩
        · exact absurd old unlisted
      · rintro ⟨member, keyed⟩
        rcases entries e member with ⟨new, -⟩ | ⟨-, unchanged, different⟩
        · exact new.symm
        · exact absurd (unchanged.symm.trans keyed) different
    · simp only [lastInserted, if_neg same, Option.filter_eq_some_iff, decide_eq_true_eq, recent]
      rw [Sound.others, List.mem_filter, order.sound.mem_departed sound, decide_eq_true_eq]
      constructor
      · rintro ⟨⟨inside, keyed⟩, stays⟩
        have otherwise : keyOf session.cache.handles e ≠ some key := fun equal =>
          same (Option.some_inj.mp (equal.symm.trans keyed))
        have member := not_not.mp fun missing => stays ⟨⟨inside, missing⟩, otherwise⟩
        rcases entries e member with ⟨rfl, -⟩ | ⟨-, unchanged, -⟩
        · exact absurd inside unlisted
        · exact ⟨member, unchanged.trans keyed⟩
      · rintro ⟨member, keyed⟩
        rcases entries e member with ⟨-, named⟩ | ⟨inside, unchanged, -⟩
        · exact absurd (Option.some_inj.mp (named.symm.trans keyed)) same
        · exact ⟨⟨inside, unchanged.symm.trans keyed⟩, fun gone => gone.1.2 member⟩
  · exact fun zero => absurd (capacity.symm.trans zero) nonzero
  · exact fun e member => List.mem_cons_of_mem _ (order.released e (sublist.subset member))
  · exact order.ordered_quietly sublist fun _ _ => Event.noConfusion
  · exact order.sound.charges_insert sound frame inside

theorem InOrder.fits_of_counted (order : InOrder hashOf session lru inUse) (positive : session.cache.capacity > 0)
    {key : Key} {value : V} {charge : UInt64} {deleter : D}
    (counted : (Call.insert key value charge deleter).Counted session) :
    (∃ e ∈ lru ++ inUse, keyOf session.cache.handles e = some key) ∨ (lru ++ inUse).length < 2 ^ 31 := by
  rcases counted.resolve_left (UInt64.pos_iff_ne_zero.mp positive) with ⟨e, member, keyed⟩ | few
  · exact .inl ⟨e, order.sound.mem_cached.mp member, keyed⟩
  · exact .inr (order.sound.cached_perm.length_eq ▸ few)

theorem InOrder.call (order : InOrder hashOf session lru inUse) {call : Call V D} (permitted : call.Permitted session)
    (counted : call.Counted session) :
    ∃ after lruAfter inUseAfter, session.call hashOf call = some after ∧ InOrder hashOf after lruAfter inUseAfter ∧
      Carried session call after := by
  cases call with
  | insert key value charge deleter =>
    by_cases zero : session.cache.capacity = 0
    · exact order.insert_bypass zero key value charge deleter
    · have positive := UInt64.pos_iff_ne_zero.mpr zero
      exact order.insert positive key value charge deleter (order.fits_of_counted positive counted)
  | lookup key => exact order.lookup key counted
  | release e => exact order.release permitted
  | erase key => exact order.erase key
  | prune => exact order.prune

end Session

/-- Every session within the bounds of the counters is in order. -/
theorem Reached.inOrder {hashOf : Key → Nat} {capacity : UInt64} {session : Session V D}
    {within : Session V D → Call V D → Prop} (counted : ∀ session call, within session call → call.Counted session)
    (reached : Reached hashOf within capacity session) :
    session.cache.capacity = capacity ∧ ∃ lru inUse, session.InOrder hashOf lru inUse := by
  induction reached with
  | new => exact ⟨rfl, [], [], Session.inOrder_new capacity⟩
  | call earlier permitted bounds returned ih =>
    obtain ⟨same, lru, inUse, order⟩ := ih
    obtain ⟨after, lruAfter, inUseAfter, computed, kept, carried⟩ := order.call permitted (counted _ _ bounds)
    obtain rfl := Option.some_inj.mp (computed.symm.trans returned)
    exact ⟨carried.capacity.trans same, lruAfter, inUseAfter, kept⟩

end Cache

end Enigma
