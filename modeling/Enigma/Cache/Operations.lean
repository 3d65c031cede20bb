import Enigma.Cache.Bookkeeping

/-! What the operations of the cache do to books that are in order, the table included.
The loops remove the oldest entries that only the cache refers to, one after another. -/

namespace Enigma

namespace Cache

variable {V D : Type}

structure Sound (hashOf : Key → Nat) (cache : LRUCache V D) (held lru inUse : List Nat) : Prop extends
    Kept cache held lru inUse where
  stored : cache.table.Holds hashOf cache.handles (lru ++ inUse)

namespace Sound

variable {hashOf : Key → Nat} {cache : LRUCache V D} {held lru inUse : List Nat} {e : Nat}

theorem restat (sound : Sound hashOf cache held lru inUse) (stats : Stats) :
    Sound hashOf { cache with stats } held lru inUse where
  listed := sound.listed
  settled := fun e => (sound.settled e).congr ⟨rfl, .rfl, rfl, rfl, .rfl, .rfl⟩
  usage := sound.usage
  stored := sound.stored

theorem frame_restat (cache : LRUCache V D) (stats : Stats) (entries : List Nat) :
    Frame cache { cache with stats } entries := ⟨rfl, rfl, fun _ _ => rfl⟩

theorem countEviction (sound : Sound hashOf cache held lru inUse) (erased : Bool) :
    Sound hashOf (cache.countEviction erased) held lru inUse := by
  cases erased with
  | false => exact sound
  | true => exact sound.restat _

theorem frame_countEviction (cache : LRUCache V D) (erased : Bool) (entries : List Nat) :
    Frame cache (cache.countEviction erased) entries := by
  cases erased with
  | false => exact .refl _ _
  | true => exact frame_restat ..

theorem retable (kept : Kept cache held lru inUse) {table : HashMap}
    (stored : table.Holds hashOf cache.handles (lru ++ inUse)) : Sound hashOf { cache with table } held lru inUse where
  listed := kept.listed
  settled := fun e => (kept.settled e).congr ⟨rfl, .rfl, rfl, rfl, .rfl, .rfl⟩
  usage := kept.usage
  stored := stored

/-- Two entries with one key are the same. -/
theorem only (sound : Sound hashOf cache held lru inUse) {left right : Nat} (first : left ∈ lru ++ inUse)
    (second : right ∈ lru ++ inUse) (same : keyOf cache.handles left = keyOf cache.handles right) : left = right := by
  by_contra different
  have : Std.Symm fun left right => keyOf cache.handles left ≠ keyOf cache.handles right :=
    ⟨fun _ _ apart => apart.symm⟩
  exact sound.stored.unique.forall first second different same

/-- An entry is erased by its key. -/
theorem eraseKey (sound : Sound hashOf cache held lru inUse) (key : Key) :
    ((∀ e ∈ lru ++ inUse, keyOf cache.handles e ≠ some key) ∧ cache.eraseKey key (hashOf key) = some (cache, false)) ∨
      ∃ e ∈ lru ++ inUse, ∃ after, keyOf cache.handles e = some key ∧
        cache.eraseKey key (hashOf key) = some (after, true) ∧ Sound hashOf after held (lru.erase e) (inUse.erase e) ∧
        Frame cache after (lru.erase e ++ inUse.erase e) := by
  rcases sound.stored.remove key with ⟨absent, computed⟩ | ⟨e, rest, table, contents, keyed, computed, fewer⟩
  · refine .inl ⟨absent, ?_⟩
    simp [LRUCache.eraseKey, computed, LRUCache.finishErase]
  · have member : e ∈ lru ++ inUse := contents.mem_iff.mpr (List.mem_cons_self ..)
    have rearranged : rest.Perm (lru.erase e ++ inUse.erase e) :=
      (contents.symm.trans (sound.perm_erase member)).cons_inv
    have kept : Kept { cache with table } held lru inUse :=
      ⟨sound.listed, fun e => (sound.settled e).congr ⟨rfl, .rfl, rfl, rfl, .rfl, .rfl⟩, sound.usage⟩
    obtain ⟨after, finished, books, frame, same⟩ := kept.finishErase member
    refine .inr ⟨e, member, after, keyed, ?_, ?_, ⟨frame.capacity, frame.allocated, frame.payload⟩⟩
    · simp [LRUCache.eraseKey, computed, finished]
    · have moved := (fewer.perm rearranged).congr frame.sameKeys
      exact ⟨books, same ▸ moved⟩

/-- The entry that a loop is about to remove. -/
theorem oldest (sound : Sound hashOf cache held (e :: lru) inUse) :
    cache.links.next .lru = some (.handle e) ∧ ∃ handle, cache.handles e = some handle ∧ handle.refs = 1 ∧
      ∃ after, cache.eraseKey handle.key handle.hash = some (after, true) ∧ Sound hashOf after held lru inUse ∧
        Frame cache after (lru ++ inUse) := by
  have member : e ∈ e :: lru ++ inUse := by simp
  have elsewhere : e ∉ inUse := sound.listed.disjoint (List.mem_cons_self ..)
  refine ⟨by simpa using sound.listed.lruRing.next_head, ?_⟩
  obtain ⟨handle, present, matching⟩ := sound.stored.hashed e member
  have alone : handle.refs = 1 := by
    cases sound.settled e with
    | idle found _ _ refs => exact (Option.some_inj.mp (present.symm.trans found)) ▸ refs
    | unused _ _ _ unlisted => exact absurd member unlisted
    | busy _ _ _ _ _ otherwise => exact absurd (List.mem_cons_self ..) otherwise
    | detached _ _ _ _ _ unlisted => exact absurd member unlisted
    | deleted _ _ _ unlisted => exact absurd member unlisted
  refine ⟨handle, present, alone, ?_⟩
  have keyed : keyOf cache.handles e = some handle.key := by simp [keyOf, present]
  rcases sound.eraseKey handle.key with ⟨absent, -⟩ | ⟨other, inside, after, same, computed, books, frame⟩
  · exact absurd keyed (absent e member)
  · obtain rfl := sound.only inside member (same.trans keyed.symm)
    rw [List.erase_cons_head, List.erase_of_not_mem elsewhere] at books frame
    exact ⟨after, matching ▸ computed, books, frame⟩

/-- The loop takes the shortest part of the list that makes room, or all of it. -/
theorem evict (sound : Sound hashOf cache held lru inUse) {rounds : Nat} (enough : lru.length < rounds) :
    ∃ after count, LRUCache.evict rounds cache = some after ∧ Sound hashOf after held (lru.drop count) inUse ∧
      Frame cache after (lru.drop count ++ inUse) ∧ count ≤ lru.length ∧
      (∀ fewer < count, total cache.handles (lru.drop fewer ++ inUse) > cache.capacity) ∧
      (total cache.handles (lru.drop count ++ inUse) ≤ cache.capacity ∨ count = lru.length) := by
  obtain ⟨rounds, rfl⟩ := Nat.exists_eq_add_one_of_ne_zero (Nat.ne_of_gt (Nat.zero_lt_of_lt enough))
  induction lru generalizing cache rounds with
  | nil =>
    refine ⟨cache, 0, ?_, sound, .refl _ _, Nat.le_refl 0, by simp, .inr rfl⟩
    have next : cache.links.next .lru = some .lru := sound.listed.lruRing.next_head
    simp [LRUCache.evict, next]
  | cons old rest ih =>
    by_cases crowded : cache.usage > cache.capacity
    · obtain ⟨next, handle, present, alone, emptied, computed, books, frame⟩ := sound.oldest
      obtain ⟨rounds, rfl⟩ : ∃ fewer, rounds = fewer + 1 := ⟨rounds - 1, by simp at enough; omega⟩
      obtain ⟨after, count, looped, kept, later, bounded, needed, stops⟩ :=
        ih (books.countEviction true) rounds (by simpa using enough)
      have first := frame.trans (frame_countEviction emptied true (rest ++ inUse)) (List.Subset.refl _)
      have inside : ∀ passed, rest.drop passed ++ inUse ⊆ rest ++ inUse := fun passed =>
        ((List.drop_sublist ..).append_right inUse).subset
      have totals : ∀ passed, total (emptied.countEviction true).handles (rest.drop passed ++ inUse) =
          total cache.handles (rest.drop passed ++ inUse) := fun passed =>
        (first.trans (.refl _ _) (inside passed)).total
      simp only [totals, first.capacity] at needed stops
      refine ⟨after, count + 1, ?_, kept, first.trans later (inside count), Nat.succ_le_succ bounded, ?_, ?_⟩
      · rw [LRUCache.evict, if_pos crowded]
        simp [next, present, alone, computed, looped]
      · intro fewer less
        cases fewer with
        | zero => exact sound.usage ▸ crowded
        | succ fewer => exact needed fewer (Nat.lt_of_succ_lt_succ less)
      · exact stops.imp_right (congrArg (· + 1))
    · refine ⟨cache, 0, by simp [LRUCache.evict, crowded], sound, .refl _ _, Nat.zero_le _, by simp, .inl ?_⟩
      rw [List.drop_zero, ← sound.usage]
      exact UInt64.not_lt.mp crowded

theorem pruneLoop (sound : Sound hashOf cache held lru inUse) {rounds : Nat} (enough : lru.length < rounds) :
    ∃ after, LRUCache.pruneLoop rounds cache = some after ∧ Sound hashOf after held [] inUse ∧
      Frame cache after inUse := by
  obtain ⟨rounds, rfl⟩ := Nat.exists_eq_add_one_of_ne_zero (Nat.ne_of_gt (Nat.zero_lt_of_lt enough))
  induction lru generalizing cache rounds with
  | nil =>
    have next : cache.links.next .lru = some .lru := sound.listed.lruRing.next_head
    exact ⟨cache, by simp [LRUCache.pruneLoop, next], sound, .refl _ _⟩
  | cons old rest ih =>
    obtain ⟨next, handle, present, alone, emptied, computed, books, frame⟩ := sound.oldest
    obtain ⟨rounds, rfl⟩ : ∃ fewer, rounds = fewer + 1 := ⟨rounds - 1, by simp at enough; omega⟩
    obtain ⟨after, looped, kept, later⟩ := ih books rounds (by simpa using enough)
    refine ⟨after, ?_, kept, frame.trans later (List.subset_append_right ..)⟩
    rw [LRUCache.pruneLoop]
    simp [next, present, alone, computed, looped]

theorem enough_rounds (sound : Sound hashOf cache held lru inUse) : lru.length < cache.table.elems + 1 := by
  rw [sound.stored.counted, List.length_append]
  omega

theorem prune (sound : Sound hashOf cache held lru inUse) :
    ∃ after, cache.prune = some after ∧ Sound hashOf after held [] inUse ∧ Frame cache after inUse :=
  sound.pruneLoop sound.enough_rounds

theorem release (sound : Sound hashOf cache held lru inUse) (holding : 0 < held.count e) :
    ∃ after inUseAfter, cache.release e = some after ∧
      Sound hashOf after (held.erase e) (if e ∈ inUse ∧ held.count e = 1 then lru ++ [e] else lru) inUseAfter ∧
      ((if e ∈ inUse ∧ held.count e = 1 then lru ++ [e] else lru) ++ inUseAfter).Perm (lru ++ inUse) ∧
      Frame cache after (lru ++ inUse) := by
  obtain ⟨after, inUseAfter, computed, books, perm, frame, same⟩ := sound.toKept.release holding
  refine ⟨after, inUseAfter, computed, ⟨books, ?_⟩, perm, frame⟩
  rw [same]
  exact (sound.stored.congr frame.sameKeys).perm perm.symm

theorem lookup (sound : Sound hashOf cache held lru inUse) (key : Key)
    (fits : ∀ e ∈ lru ++ inUse, keyOf cache.handles e = some key → held.count e + 2 < 2 ^ 32) :
    ((∀ e ∈ lru ++ inUse, keyOf cache.handles e ≠ some key) ∧
      ∃ after, cache.lookup key (hashOf key) = some (after, none) ∧ Sound hashOf after held lru inUse ∧
        Frame cache after (lru ++ inUse)) ∨
    ∃ e ∈ lru ++ inUse, ∃ after inUseAfter, keyOf cache.handles e = some key ∧
      cache.lookup key (hashOf key) = some (after, some e) ∧ Sound hashOf after (e :: held) (lru.erase e) inUseAfter ∧
      (lru.erase e ++ inUseAfter).Perm (lru ++ inUse) ∧ Frame cache after (lru ++ inUse) := by
  rcases sound.stored.lookup key with ⟨absent, computed⟩ | ⟨e, member, keyed, computed⟩
  · let missed := { cache.stats with totalMisses := cache.stats.totalMisses + 1 }
    have result : cache.lookup key (hashOf key) = some ({ cache with stats := missed }, none) := by
      simp only [LRUCache.lookup, computed, Option.bind_eq_bind, Option.bind_some]
      rfl
    exact .inl ⟨absent, _, result, sound.restat missed, frame_restat ..⟩
  · have counted := sound.restat { cache.stats with totalHits := cache.stats.totalHits + 1 }
    obtain ⟨after, inUseAfter, taken, books, perm, frame, same⟩ := counted.toKept.ref member (fits e member keyed)
    have frame := (frame_restat cache _ _).trans frame (List.Subset.refl _)
    refine .inr ⟨e, member, after, inUseAfter, keyed, ?_, ⟨books, ?_⟩, perm, frame⟩
    · simp only [LRUCache.lookup, computed, Option.bind_eq_bind, Option.bind_some, taken]
      rfl
    · rw [same]
      exact (sound.stored.congr frame.sameKeys).perm perm.symm

/-- The entries that an entry with this key does not replace. -/
def others (handles : Handles V D) (key : Key) (entries : List Nat) : List Nat :=
  entries.filter fun e => keyOf handles e ≠ some key

theorem others_of_absent {handles : Handles V D} {key : Key} {entries : List Nat}
    (absent : ∀ e ∈ entries, keyOf handles e ≠ some key) : others handles key entries = entries :=
  List.filter_eq_self.mpr fun e member => decide_eq_true (absent e member)

theorem erase_eq_others (sound : Sound hashOf cache held lru inUse) {old : Nat} {key : Key}
    (member : old ∈ lru ++ inUse) (keyed : keyOf cache.handles old = some key) {entries : List Nat}
    (inside : entries ⊆ lru ++ inUse) (distinct : entries.Nodup) :
    entries.erase old = others cache.handles key entries := by
  rw [distinct.erase_eq_filter]
  refine List.filter_congr fun e present => ?_
  by_cases same : e = old
  · simp [same, keyed]
  · have different : keyOf cache.handles e ≠ some key := fun equal =>
      same (sound.only (inside present) member (equal.trans keyed.symm))
    simp [same, different]

theorem place (sound : Sound hashOf cache held lru inUse) (handle : LRUHandle V D) (alone : handle.refs = 1)
    (matching : handle.hash = hashOf handle.key)
    (fits : (∃ e ∈ lru ++ inUse, keyOf cache.handles e = some handle.key) ∨ (lru ++ inUse).length < 2 ^ 31) :
    ∃ after, (cache.malloc handle).place cache.allocated handle = some after ∧
      Sound hashOf after (cache.allocated :: held) (others cache.handles handle.key lru)
        (others cache.handles handle.key inUse ++ [cache.allocated]) ∧
      Frame (cache.malloc handle) after (others cache.handles handle.key lru ++
        (others cache.handles handle.key inUse ++ [cache.allocated])) := by
  obtain ⟨admitted, takingIn, kept, sameTable, capacity, allocated, handles⟩ := sound.toKept.takeIn handle alone
  obtain ⟨-, -, unlisted, -⟩ := sound.toKept.unused_allocated
  have elsewhere : ∀ e ∈ lru ++ inUse, admitted.handles e = cache.handles e := fun e member => by
    have different : e ≠ cache.allocated := fun same => unlisted (same ▸ member)
    rw [handles, Function.update_of_ne different]
  have keys : ∀ e ∈ lru ++ inUse, keyOf admitted.handles e = keyOf cache.handles e := fun e member => by
    rw [keyOf, elsewhere e member, keyOf]
  have present : admitted.handles cache.allocated = some { handle with refs := handle.refs + 1, inCache := true } := by
    rw [handles, Function.update_self]
  have frame : ∀ entries, Frame (cache.malloc handle) admitted entries := fun entries => by
    refine ⟨capacity, allocated, fun e _ => ?_⟩
    by_cases same : e = cache.allocated
    · subst same
      simp [present, LRUCache.malloc, LRUCache.setHandle, LRUHandle.payload]
    · simp [handles, LRUCache.malloc, LRUCache.setHandle, Function.update_of_ne same]
  have stored : admitted.table.Holds hashOf admitted.handles (lru ++ inUse) :=
    sameTable ▸ sound.stored.congr fun e member => by rw [elsewhere e member]
  rcases stored.insert present matching with ⟨absent, inserts⟩ | ⟨old, rest, table, contents, keyed, inserted, holds⟩
  · have missing : ∀ e ∈ lru ++ inUse, keyOf cache.handles e ≠ some handle.key := fun e member =>
      keys e member ▸ absent e member
    have room : (lru ++ inUse).length < 2 ^ 31 := by
      refine fits.resolve_left ?_
      rintro ⟨e, member, same⟩
      exact missing e member same
    obtain ⟨table, inserted, holds⟩ := inserts room
    rw [others_of_absent fun e member => missing e (List.mem_append_left inUse member),
      others_of_absent fun e member => missing e (List.mem_append_right lru member)]
    have perm : (cache.allocated :: (lru ++ inUse)).Perm (lru ++ (inUse ++ [cache.allocated])) := by
      rw [← List.append_assoc]
      exact (List.perm_append_singleton ..).symm
    have books := retable kept (holds.perm perm)
    let counted := { admitted.stats with totalInserts := admitted.stats.totalInserts + 1 }
    refine ⟨{ admitted with table, stats := counted }, ?_, books.restat counted, capacity, allocated, (frame _).payload⟩
    simp [LRUCache.place, takingIn, inserted, LRUCache.finishErase, counted]
  · have member : old ∈ lru ++ inUse := contents.mem_iff.mpr (List.mem_cons_self ..)
    have named : keyOf cache.handles old = some handle.key := (keys old member).symm.trans keyed
    have different : old ≠ cache.allocated := fun same => unlisted (same ▸ member)
    have swapped : Kept { admitted with table } (cache.allocated :: held) lru (inUse ++ [cache.allocated]) :=
      ⟨kept.listed, fun e => (kept.settled e).congr ⟨rfl, .rfl, rfl, rfl, .rfl, .rfl⟩, kept.usage⟩
    have inside : old ∈ lru ++ (inUse ++ [cache.allocated]) := by
      rw [← List.append_assoc]
      exact List.mem_append_left _ member
    obtain ⟨after, finished, books, later, same⟩ := swapped.finishErase inside
    have last : (inUse ++ [cache.allocated]).erase old = inUse.erase old ++ [cache.allocated] := by
      by_cases busy : old ∈ inUse
      · rw [List.erase_append_left _ busy]
      · have apart : old ∉ [cache.allocated] := by simpa using different
        rw [List.erase_append_right _ busy, List.erase_of_not_mem busy, List.erase_of_not_mem apart]
    have distinct := sound.listed.distinct
    have lruOthers :=
      sound.erase_eq_others member named (List.subset_append_left lru inUse) distinct.of_append_left
    have inUseOthers :=
      sound.erase_eq_others member named (List.subset_append_right lru inUse) distinct.of_append_right
    have perm : (cache.allocated :: rest).Perm (lru.erase old ++ (inUse.erase old ++ [cache.allocated])) := by
      have remaining := (contents.symm.trans (sound.perm_erase member)).cons_inv
      rw [← List.append_assoc]
      exact (remaining.cons _).trans (List.perm_append_singleton ..).symm
    rw [last, lruOthers, inUseOthers] at books later
    rw [lruOthers, inUseOthers] at perm
    have stored := (holds.perm perm).congr later.sameKeys
    have whole : Sound hashOf after (cache.allocated :: held) _ _ := ⟨books, by rw [same]; exact stored⟩
    let counted := { after.stats with totalInserts := after.stats.totalInserts + 1 }
    refine ⟨{ after with stats := counted }, ?_, whole.restat counted, ?_⟩
    · simp [LRUCache.place, takingIn, inserted, finished, counted]
    · exact ⟨later.capacity.trans capacity, later.allocated.trans allocated,
        fun e member => (later.payload e member).trans ((frame [e]).payload e (List.mem_singleton_self e))⟩

theorem total_malloc (sound : Sound hashOf cache held lru inUse) (handle : LRUHandle V D) {entries busy : List Nat}
    (inside : entries ++ busy ⊆ lru ++ inUse) :
    total (cache.malloc handle).handles (entries ++ (busy ++ [cache.allocated])) =
      handle.charge + total cache.handles (entries ++ busy) := by
  obtain ⟨-, -, unlisted, -⟩ := sound.toKept.unused_allocated
  have perm : (entries ++ (busy ++ [cache.allocated])).Perm (cache.allocated :: (entries ++ busy)) := by
    rw [← List.append_assoc]
    exact List.perm_append_singleton ..
  rw [total_perm perm, total_cons]
  simp only [LRUCache.malloc, LRUCache.setHandle]
  rw [Kept.total_update fun member => unlisted (inside member)]
  simp [chargeOf]

theorem insert (sound : Sound hashOf cache held lru inUse) (positive : cache.capacity > 0) (key : Key) (value : V)
    (charge : UInt64) (deleter : D)
    (fits : (∃ e ∈ lru ++ inUse, keyOf cache.handles e = some key) ∨ (lru ++ inUse).length < 2 ^ 31) :
    ∃ after count, cache.insert key (hashOf key) value charge deleter = some (after, cache.allocated) ∧
      Sound hashOf after (cache.allocated :: held) ((others cache.handles key lru).drop count)
        (others cache.handles key inUse ++ [cache.allocated]) ∧
      Frame (cache.malloc ⟨value, deleter, charge, key, hashOf key, false, 1⟩) after
        ((others cache.handles key lru).drop count ++ (others cache.handles key inUse ++ [cache.allocated])) ∧
      count ≤ (others cache.handles key lru).length ∧
      (∀ fewer < count, charge + total cache.handles ((others cache.handles key lru).drop fewer ++
        others cache.handles key inUse) > cache.capacity) ∧
      (charge + total cache.handles ((others cache.handles key lru).drop count ++
        others cache.handles key inUse) ≤ cache.capacity ∨ count = (others cache.handles key lru).length) := by
  let handle : LRUHandle V D := ⟨value, deleter, charge, key, hashOf key, false, 1⟩
  obtain ⟨placed, placing, books, frame⟩ := sound.place handle rfl rfl fits
  obtain ⟨after, count, looped, kept, later, bounded, needed, stops⟩ := books.evict books.enough_rounds
  have inside : ∀ passed, (others cache.handles key lru).drop passed ++ (others cache.handles key inUse ++
      [cache.allocated]) ⊆ others cache.handles key lru ++ (others cache.handles key inUse ++ [cache.allocated]) :=
    fun passed => ((List.drop_sublist ..).append_right _).subset
  have listed : ∀ passed, (others cache.handles key lru).drop passed ++ others cache.handles key inUse ⊆ lru ++ inUse :=
    fun passed => (((List.drop_sublist ..).trans List.filter_sublist).append List.filter_sublist).subset
  have totals : ∀ passed, total placed.handles ((others cache.handles key lru).drop passed ++
      (others cache.handles key inUse ++ [cache.allocated])) =
        charge + total cache.handles ((others cache.handles key lru).drop passed ++ others cache.handles key inUse) :=
    fun passed => (frame.trans (.refl _ _) (inside passed)).total.trans (sound.total_malloc handle (listed passed))
  have sameCapacity : placed.capacity = cache.capacity := frame.capacity
  simp only [handle, totals, sameCapacity] at needed stops
  refine ⟨after, count, ?_, kept, frame.trans later (inside count), bounded, needed, stops⟩
  have branch : (cache.malloc handle).capacity > 0 := positive
  simp only [LRUCache.insert]
  rw [if_pos branch]
  simp [placing, looped, handle]

/-- A cache without capacity keeps nothing. -/
theorem insert_bypass (sound : Sound hashOf cache held [] []) (zero : cache.capacity = 0) (key : Key) (value : V)
    (charge : UInt64) (deleter : D) :
    ∃ after, cache.insert key (hashOf key) value charge deleter = some (after, cache.allocated) ∧
      Sound hashOf after (cache.allocated :: held) [] [] ∧ after.capacity = 0 ∧
      after.allocated = cache.allocated + 1 := by
  let handle : LRUHandle V D := ⟨value, deleter, charge, key, hashOf key, false, 1⟩
  let bypassed := { cache.malloc handle with links := cache.links.setNext (.handle cache.allocated) none }
  have books : Sound hashOf bypassed (cache.allocated :: held) [] [] :=
    ⟨sound.toKept.bypass handle rfl rfl, sound.stored.congr fun e member => absurd member (List.not_mem_nil)⟩
  obtain ⟨after, count, looped, kept, frame, -⟩ := books.evict books.enough_rounds
  rw [List.drop_nil] at kept
  refine ⟨after, ?_, kept, frame.capacity.trans zero, frame.allocated⟩
  have branch : ¬(cache.malloc handle).capacity > 0 := by
    show ¬cache.capacity > 0
    simp [zero]
  simp only [LRUCache.insert]
  rw [if_neg branch]
  have looped : LRUCache.evict (bypassed.table.elems + 1) bypassed = some after := looped
  simp only [Option.bind_eq_bind, Option.bind_some]
  exact (congrArg (Option.bind · _) looped)

end Sound

/-- What is left to do for the destructor, which does not unlink what it frees. -/
structure Dismantling (cache : LRUCache V D) (lru : List Nat) : Prop where
  linked : (lru.map Node.handle ++ [Node.lru]).IsChain fun left right => cache.links.next left = some right
  distinct : lru.Nodup
  idle : ∀ e ∈ lru, ∃ handle, cache.handles e = some handle ∧ handle.inCache = true ∧ handle.refs = 1 ∧
    cache.deletions e = 0
  gone : ∀ e, e ∉ lru → e < cache.allocated → cache.deletions e = 1

theorem Dismantling.loop {cache : LRUCache V D} {lru : List Nat} (left : Dismantling cache lru) {rounds : Nat}
    (enough : lru.length < rounds) :
    ∃ after, LRUCache.dismantle rounds ((lru.map .handle).headD .lru) cache = some after ∧
      after.allocated = cache.allocated ∧ ∀ e < cache.allocated, after.deletions e = 1 := by
  obtain ⟨rounds, rfl⟩ := Nat.exists_eq_add_one_of_ne_zero (Nat.ne_of_gt (Nat.zero_lt_of_lt enough))
  induction lru generalizing cache rounds with
  | nil => exact ⟨cache, rfl, rfl, fun e old => left.gone e (List.not_mem_nil) old⟩
  | cons e rest ih =>
    obtain ⟨handle, present, cached, refs, calls⟩ := left.idle e (List.mem_cons_self ..)
    obtain ⟨rounds, rfl⟩ : ∃ fewer, rounds = fewer + 1 := ⟨rounds - 1, by simp at enough; omega⟩
    obtain ⟨apart, distinct⟩ := List.nodup_cons.mp left.distinct
    let freed := (cache.setHandle e { handle with inCache := false }).delete e
      { handle with inCache := false, refs := handle.refs - 1 }
    have deletions : ∀ other, freed.deletions other = cache.deletions other + if other = e then 1 else 0 :=
      Kept.deletions_delete (cache.setHandle e { handle with inCache := false }) e _
    have next : cache.links.next (.handle e) = some ((rest.map .handle).headD .lru) ∧
        (rest.map Node.handle ++ [Node.lru]).IsChain fun left right => cache.links.next left = some right := by
      have linked := left.linked
      cases rest with
      | nil => exact List.isChain_cons_cons.mp linked
      | cons second later => exact List.isChain_cons_cons.mp linked
    have remaining : Dismantling freed rest := by
      refine ⟨?_, distinct, ?_, ?_⟩
      · refine next.2.imp_of_mem_imp ?_
        intro node other member _ forward
        have different : node ≠ .handle e := by
          rintro rfl
          simp [apart] at member
        simpa [freed, LRUCache.delete, LRUCache.setHandle, Links.forget, different] using forward
      · intro other member
        have different : other ≠ e := fun same => apart (same ▸ member)
        obtain ⟨handle, found, facts⟩ := left.idle other (List.mem_cons_of_mem e member)
        refine ⟨handle, ?_, facts.1, facts.2.1, by rw [deletions, if_neg different, Nat.add_zero, facts.2.2]⟩
        simp [freed, LRUCache.delete, LRUCache.setHandle, Function.update_of_ne different, found]
      · intro other outside old
        rw [deletions]
        by_cases same : other = e
        · rw [if_pos same, same, calls]
        · rw [if_neg same, Nat.add_zero]
          exact left.gone other (by simp [same, outside]) old
    obtain ⟨after, looped, allocated, deleted⟩ := ih remaining rounds (by simpa using enough)
    refine ⟨after, ?_, allocated, deleted⟩
    rw [List.map_cons, List.headD_cons, LRUCache.dismantle]
    simpa [next.1, present, cached, refs, LRUCache.unref, LRUCache.setHandle, freed] using looped

/-- Once every handle has been released, the destructor deletes what is left. -/
theorem Sound.destroy {hashOf : Key → Nat} {cache : LRUCache V D} {lru inUse : List Nat}
    (sound : Sound hashOf cache [] lru inUse) :
    ∃ after, cache.destroy = some after ∧ ∀ e < cache.allocated, after.deletions e = 1 := by
  have none : inUse = [] := by
    refine List.eq_nil_iff_forall_not_mem.mpr fun e member => ?_
    cases sound.settled e with
    | unused _ _ _ unlisted => exact unlisted (List.mem_append_right lru member)
    | busy _ _ _ _ holders => exact absurd holders (Nat.lt_irrefl 0)
    | idle _ _ _ _ _ _ otherwise => exact otherwise member
    | detached _ _ _ _ holders => exact absurd holders (Nat.lt_irrefl 0)
    | deleted _ _ _ unlisted => exact unlisted (List.mem_append_right lru member)
  subst none
  have linked := List.isChain_of_isChain_cons sound.listed.lruRing.linked
  have left : Dismantling cache lru := by
    refine ⟨linked.imp fun _ _ follows => follows.1, sound.listed.distinct.of_append_left, ?_, ?_⟩
    · intro e member
      cases sound.settled e with
      | unused _ _ _ unlisted => exact absurd (List.mem_append_left [] member) unlisted
      | busy _ _ _ _ holders => exact absurd holders (Nat.lt_irrefl 0)
      | idle present _ cached refs _ _ _ calls => exact ⟨_, present, cached, refs, calls⟩
      | detached _ _ _ _ holders => exact absurd holders (Nat.lt_irrefl 0)
      | deleted _ _ _ unlisted => exact absurd (List.mem_append_left [] member) unlisted
    · intro e outside old
      cases sound.settled e with
      | unused _ fresh => exact absurd fresh (Nat.not_le_of_lt old)
      | busy _ _ _ _ holders => exact absurd holders (Nat.lt_irrefl 0)
      | idle _ _ _ _ _ listed => exact absurd listed outside
      | detached _ _ _ _ holders => exact absurd holders (Nat.lt_irrefl 0)
      | deleted _ _ _ _ calls => exact calls
  obtain ⟨after, looped, -, deleted⟩ := left.loop sound.enough_rounds
  refine ⟨after, ?_, deleted⟩
  have first := sound.listed.lruRing.next_head
  have free : cache.links.next .inUse = some .inUse := sound.listed.inUseRing.next_head
  simpa only [LRUCache.destroy, free, first, guard, if_true, Option.bind_eq_bind, Option.bind_some, Option.pure_def]
    using looped

end Cache

end Enigma
