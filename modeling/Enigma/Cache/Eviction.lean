import Enigma.Cache.ManyHandles
import Mathlib.Tactic.Abel

/-! Which entries an insertion evicts. The list of the entries that no client holds is in
the order in which their last handles were released, however they came to it. -/

namespace Enigma

namespace Cache

variable {V D : Type}

/-- The usage once a new entry stands in for the old one of its key and some others are removed. -/
def usageWithout (session : Session V D) (key : Key) (charge : UInt64) (removed : List Nat) : UInt64 :=
  session.cache.usage + charge -
    total session.cache.handles (session.cache.cached.filter fun e => keyOf session.cache.handles e = some key) -
    total session.cache.handles removed

/-- The entries that leave to make room are the oldest of those that no client holds, and
no more of them than necessary. -/
structure EvictsOldest (session : Session V D) (key : Key) (charge : UInt64) (after : LRUCache V D) (e : Nat)
    (idle : List Nat) (count : Nat) : Prop where
  unpinned : ∀ other, other ∈ idle ↔ other ∈ session.cache.cached ∧ other ∉ session.held ∧
    keyOf session.cache.handles other ≠ some key
  released : ∀ other ∈ idle, Event.released other ∈ session.history
  ordered : idle.Pairwise (ReleasedBefore session.history)
  evicted : ∀ other, other ∈ session.cache.cached ∧ other ∉ after.cached ∧
    keyOf session.cache.handles other ≠ some key ↔ other ∈ idle.take count
  usage : after.usage = usageWithout session key charge (idle.take count)
  needed : ∀ fewer < count, usageWithout session key charge (idle.take fewer) > session.cache.capacity
  enough : after.usage ≤ session.cache.capacity ∨ count = idle.length
  pinned : ∀ other ∈ session.held, other ∈ session.cache.cached → keyOf session.cache.handles other ≠ some key →
    other ∈ after.cached
  inserted : e ∈ after.cached
  soft : after.usage ≤ after.capacity ∨ ∀ other ∈ after.cached, other ∈ e :: session.held

namespace Session.InOrder

variable {hashOf : Key → Nat} {session : Session V D} {lru inUse : List Nat} {e : Nat}

theorem mem_lru (order : InOrder hashOf session lru inUse) : e ∈ lru ↔ e ∈ session.cache.cached ∧ e ∉ session.held := by
  rw [order.sound.mem_cached]
  cases order.sound.settled e with
  | unused _ _ _ unlisted => simp_all
  | busy _ _ _ _ holders otherwise =>
    have holding := List.count_pos_iff.mp holders
    simp [otherwise, holding]
  | idle _ _ _ _ released listed =>
    have free := List.count_eq_zero.mp released
    simp [listed, free]
  | detached _ _ _ _ _ unlisted => simp_all
  | deleted _ _ _ unlisted => simp_all

theorem held_of_inUse (order : InOrder hashOf session lru inUse) (member : e ∈ inUse) : e ∈ session.held := by
  by_contra free
  have idle := order.mem_lru.mpr ⟨order.sound.mem_cached.mpr (List.mem_append_right lru member), free⟩
  exact order.sound.listed.disjoint idle member

theorem usageWithout_eq (order : InOrder hashOf session lru inUse) (key : Key) (charge : UInt64) (passed : Nat) :
    charge + total session.cache.handles ((Sound.others session.cache.handles key lru).drop passed ++
      Sound.others session.cache.handles key inUse) =
    usageWithout session key charge ((Sound.others session.cache.handles key lru).take passed) := by
  have append : ∀ left right, total session.cache.handles (left ++ right) =
      total session.cache.handles left + total session.cache.handles right := fun left right => by
    simp [total, List.sum_append]
  have sorted : (lru ++ inUse).Perm ((lru ++ inUse).filter (fun e => keyOf session.cache.handles e = some key) ++
      Sound.others session.cache.handles key (lru ++ inUse)) := by
    refine (List.filter_append_perm _ _).symm.trans (List.Perm.of_eq (congrArg _ ?_))
    exact List.filter_congr fun e _ => (decide_not ..).symm
  have replaced := @total_perm _ _ session.cache.handles _ _
    (order.sound.cached_perm.filter fun e => keyOf session.cache.handles e = some key)
  have parts : total session.cache.handles (Sound.others session.cache.handles key (lru ++ inUse)) =
      total session.cache.handles ((Sound.others session.cache.handles key lru).take passed) +
        total session.cache.handles ((Sound.others session.cache.handles key lru).drop passed ++
          Sound.others session.cache.handles key inUse) := by
    rw [← append, ← List.append_assoc, List.take_append_drop]
    exact congrArg (total _) (List.filter_append ..)
  rw [usageWithout, order.sound.usage, (total_perm sorted).trans (append ..), parts, replaced]
  abel

theorem evictsOldest (order : InOrder hashOf session lru inUse) (positive : session.cache.capacity > 0) (key : Key)
    (value : V) (charge : UInt64) (deleter : D)
    (fits : (∃ e ∈ lru ++ inUse, keyOf session.cache.handles e = some key) ∨ (lru ++ inUse).length < 2 ^ 31) :
    ∃ after idle count, session.cache.insert key (hashOf key) value charge deleter =
        some (after, session.cache.allocated) ∧
      EvictsOldest session key charge after session.cache.allocated idle count := by
  obtain ⟨after, count, computed, sound, frame, bounded, needed, stops⟩ :=
    order.sound.insert positive key value charge deleter fits
  obtain ⟨-, -, unlisted, -⟩ := order.sound.unused_allocated
  have capacity : after.capacity = session.cache.capacity := frame.capacity
  have usage : after.usage =
      usageWithout session key charge ((Sound.others session.cache.handles key lru).take count) := by
    rw [← order.usageWithout_eq, sound.usage, frame.total]
    refine order.sound.total_malloc _ ?_
    exact (((List.drop_sublist ..).trans List.filter_sublist).append List.filter_sublist).subset
  have enough : after.usage ≤ session.cache.capacity ∨ count = (Sound.others session.cache.handles key lru).length := by
    rw [usage, ← order.usageWithout_eq]
    exact stops
  have idle : ∀ other, other ∈ Sound.others session.cache.handles key lru ↔ other ∈ session.cache.cached ∧
      other ∉ session.held ∧ keyOf session.cache.handles other ≠ some key := fun other => by
    rw [Sound.others, List.mem_filter, order.mem_lru, decide_eq_true_eq, and_assoc]
  have busy : ∀ other ∈ session.held, other ∈ session.cache.cached → keyOf session.cache.handles other ≠ some key →
      other ∈ after.cached := fun other holding cached different => by
    have listed : other ∈ inUse := (List.mem_append.mp (order.sound.mem_cached.mp cached)).resolve_left fun inside =>
      (order.mem_lru.mp inside).2 holding
    exact sound.mem_cached.mpr (by simp [Sound.others, listed, different])
  refine ⟨after, Sound.others session.cache.handles key lru, count, computed, {
    unpinned := idle
    released := fun other member => order.released other (List.mem_filter.mp member).1
    ordered := order.ordered.sublist List.filter_sublist
    evicted := ?_
    usage := usage
    needed := fun fewer less => order.usageWithout_eq key charge fewer ▸ needed fewer less
    enough := enough
    pinned := busy
    inserted := sound.mem_cached.mpr (by simp)
    soft := ?_ }⟩
  · intro other
    have distinct : (Sound.others session.cache.handles key lru).Nodup :=
      order.sound.listed.distinct.of_append_left.filter _
    have parted := List.take_append_drop count (Sound.others session.cache.handles key lru)
    rw [order.sound.mem_cached, sound.mem_cached]
    constructor
    · rintro ⟨cached, gone, different⟩
      rcases List.mem_append.mp cached with inside | inside
      · have listed : other ∈ Sound.others session.cache.handles key lru := by simp [Sound.others, inside, different]
        rw [← parted, List.mem_append] at listed
        exact listed.resolve_right fun stays => gone (List.mem_append_left _ stays)
      · exact absurd (by simp [Sound.others, inside, different]) gone
    · intro member
      have listed : other ∈ Sound.others session.cache.handles key lru := List.mem_of_mem_take member
      obtain ⟨cached, free, different⟩ := (idle other).mp listed
      have stored := order.sound.mem_cached.mp cached
      refine ⟨stored, fun stays => ?_, different⟩
      rcases List.mem_append.mp stays with late | late
      · exact List.disjoint_of_nodup_append (parted.symm ▸ distinct) member late
      · rcases List.mem_append.mp late with held | new
        · exact free (order.held_of_inUse (List.mem_filter.mp held).1)
        · exact unlisted (List.mem_singleton.mp new ▸ stored)
  · refine enough.imp (fun room => capacity ▸ room) fun all other cached => ?_
    rw [sound.mem_cached, all, List.drop_length, List.nil_append] at cached
    rcases List.mem_append.mp cached with held | new
    · exact List.mem_cons_of_mem _ (order.held_of_inUse (List.mem_filter.mp held).1)
    · exact List.mem_singleton.mp new ▸ List.mem_cons_self ..

end Session.InOrder

/-- Whatever calls came before, an insertion evicts the oldest entries that no client holds. -/
theorem insert_evicts_oldest {hashOf : Key → Nat} {capacity : UInt64} {session : Session V D}
    (reached : Reached hashOf Call.Counted capacity session) (positive : capacity > 0) (key : Key) (value : V)
    (charge : UInt64) (deleter : D) (counted : (Call.insert key value charge deleter).Counted session) :
    ∃ after e idle count, session.cache.insert key (hashOf key) value charge deleter = some (after, e) ∧
      EvictsOldest session key charge after e idle count := by
  obtain ⟨rfl, lru, inUse, order⟩ := reached.inOrder fun _ _ => id
  have fits := order.fits_of_counted positive counted
  obtain ⟨after, idle, count, computed, evicts⟩ := order.evictsOldest positive key value charge deleter fits
  exact ⟨after, _, idle, count, computed, evicts⟩

theorem insert_evicts_oldest_of_two :
    ∃ session : Session Unit Unit, session.held = [2] ∧ ∃ after e idle count,
      session.cache.insert [4] 1 () 2 () = some (after, e) ∧ EvictsOldest session [4] 2 after e idle count := by
  have summary : (Session.run List.length Call.Counted (.new 3) [.insert [1] () 1 (), .insert [2] () 1 (),
      .insert [3] () 1 (), .release 1, .release 0] : Option (Session Unit Unit)).map
        (fun session => (session.held, session.cache.cached.length)) = some ([2], 3) := by decide
  obtain ⟨session, returned, same⟩ := Option.map_eq_some_iff.mp summary
  obtain ⟨held, size⟩ := Prod.mk.inj same
  have few : session.cache.cached.length < 2 ^ 31 := by omega
  exact ⟨session, held, insert_evicts_oldest (Reached.new.run returned) (by decide) [4] () 2 () (.inr (.inr few))⟩

/-- The only entry of a cache is on the list of those that no client holds. -/
def idleLinks : Node → Option Node
  | .lru => some (.handle 0)
  | .inUse => some .inUse
  | .handle 0 => some .lru
  | .handle (_ + 1) => none

def idleCache (hits : UInt64) : LRUCache Unit Unit := { loneCache 1 hits with links := ⟨idleLinks, idleLinks⟩ }

theorem lookup_wrapped (hits : UInt64) :
    (loneCache 1 hits).lookup [] 0 = some (loneCache 2 (hits + 1), some 0) := by
  have taken : (loneCache 1 (hits + 1)).ref 0 = some (loneCache 2 (hits + 1)) := by
    refine congrArg (fun cache => some cache) (cache_ext ?_ ?_ ?_ rfl)
    · rintro (_ | _ | _ | _) <;> rfl
    · rintro (_ | _ | _ | _) <;> rfl
    · rintro (_ | _) <;> rfl
  simp only [LRUCache.lookup, find_lone, Option.bind_eq_bind, Option.bind_some]
  exact congrArg (Option.bind · fun cache => some (cache, some 0)) taken

theorem release_wrapped (hits : UInt64) : (loneCache 2 hits).release 0 = some (idleCache hits) := by
  refine congrArg (fun cache => some cache) (cache_ext ?_ ?_ ?_ rfl)
  · rintro (_ | _ | _ | _) <;> rfl
  · rintro (_ | _ | _ | _) <;> rfl
  · rintro (_ | _) <;> rfl

/-- Once the count of the references has come round, an entry with handles out is evicted. -/
theorem evicts_held_entry :
    ∃ session : Session Unit Unit, Reached sameHash (fun _ _ => True) 1 session ∧ 0 ∈ session.held ∧
      0 ∈ session.cache.cached ∧ ∃ after e, session.cache.insert [1] 0 () 1 () = some (after, e) ∧
        after.deletions 0 = 1 ∧ ∀ idle count, ¬EvictsOldest session [1] 1 after e idle count := by
  obtain ⟨history, reached⟩ := reached_lone (2 ^ 32 - 2) (Nat.le_refl _)
  have wrapped : (2 ^ 32 - 2 + 2) % 2 ^ 32 ≠ 1 := by decide
  let held := List.replicate (2 ^ 32 - 2 + 1) 0
  have first : Session.call sameHash ⟨loneCache ((2 ^ 32 - 2 + 2) % 2 ^ 32) (.ofNat (2 ^ 32 - 2)), held, history⟩
      (.lookup []) = some ⟨loneCache 1 (2 ^ 32 - 1), 0 :: held, .lookedUp :: history⟩ := by
    simp only [Session.call, sameHash, lookup_lone wrapped]
    rfl
  have second : Session.call sameHash ⟨loneCache 1 (2 ^ 32 - 1), 0 :: held, .lookedUp :: history⟩ (.lookup []) =
      some ⟨loneCache 2 (2 ^ 32), 0 :: 0 :: held, .lookedUp :: .lookedUp :: history⟩ := by
    simp only [Session.call, sameHash, lookup_wrapped]
    rfl
  have third : Session.call sameHash ⟨loneCache 2 (2 ^ 32), 0 :: 0 :: held, .lookedUp :: .lookedUp :: history⟩
      (.release 0) = some ⟨idleCache (2 ^ 32), 0 :: held, .released 0 :: .lookedUp :: .lookedUp :: history⟩ := by
    simp only [Session.call, release_wrapped]
    rfl
  have reached := ((reached.call (by trivial) (by trivial) first).call (by trivial) (by trivial) second).call
    (List.mem_cons_self ..) (by trivial) third
  have summary : ((idleCache (2 ^ 32)).insert [1] 0 () 1 ()).map
      (fun result => (result.1.cached, result.1.deletions 0)) = some ([1], 1) := by decide
  obtain ⟨⟨after, e⟩, computed, same⟩ := Option.map_eq_some_iff.mp summary
  obtain ⟨left, deleted⟩ := Prod.mk.inj same
  have cached : 0 ∈ (idleCache (2 ^ 32)).cached := by decide
  have different : keyOf (idleCache (2 ^ 32)).handles 0 ≠ some [1] := by decide
  refine ⟨_, reached, List.mem_cons_self .., cached, after, e, computed, deleted, fun idle count evicts => ?_⟩
  have stays := evicts.pinned 0 (List.mem_cons_self ..) cached different
  exact absurd (left ▸ stays) (by decide)

end Cache

end Enigma
