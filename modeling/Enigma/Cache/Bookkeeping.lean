import Enigma.Cache.LruCache
import Mathlib.Algebra.BigOperators.Group.List.Basic

/-! The books of the cache. An entry is always in one of a few phases; each of the steps
that the operations are made of moves one entry from one phase to another. -/

namespace Enigma

namespace Cache

variable {V D : Type}

/-- The two rings share the links and no handle. -/
structure Listed (links : Links Node) (lru inUse : List Nat) : Prop where
  lruRing : links.Ring .lru (lru.map .handle)
  inUseRing : links.Ring .inUse (inUse.map .handle)
  distinct : (lru ++ inUse).Nodup

theorem unlink_handle {links : Links Node} {head : Node} {list : List Nat} (ring : links.Ring head (list.map .handle))
    {e : Nat} (member : e ∈ list) (distinct : list.Nodup) :
    ∃ changed, links.unlink (.handle e) = some changed ∧ changed.Ring head ((list.erase e).map .handle) ∧
      links.SameOutside changed (head :: (list.erase e).map .handle) := by
  obtain ⟨front, back, rfl⟩ := List.append_of_mem member
  have apart : e ∉ front := by
    simp only [List.nodup_append, List.nodup_cons, List.mem_cons] at distinct
    exact fun inside => distinct.2.2 e inside e (.inl rfl) rfl
  rw [List.map_append, List.map_cons] at ring
  rw [List.erase_append_right _ apart, List.erase_cons_head, List.map_append]
  exact ring.unlink

namespace Listed

variable {links : Links Node} {lru inUse : List Nat} {e : Nat}

theorem disjoint (listed : Listed links lru inUse) (first : e ∈ lru) : e ∉ inUse :=
  fun second => List.disjoint_of_nodup_append listed.distinct first second

theorem remove (listed : Listed links lru inUse) (member : e ∈ lru ++ inUse) :
    ∃ changed, links.unlink (.handle e) = some changed ∧ Listed changed (lru.erase e) (inUse.erase e) := by
  have apart : ∀ other ∈ lru, other ∉ inUse := fun other => listed.disjoint
  have distinct : (lru.erase e ++ inUse.erase e).Nodup :=
    listed.distinct.sublist (List.Sublist.append (List.erase_sublist ..) (List.erase_sublist ..))
  rcases List.mem_append.mp member with idle | busy
  · obtain ⟨changed, computed, ring, same⟩ := unlink_handle listed.lruRing idle listed.distinct.of_append_left
    have elsewhere : inUse.erase e = inUse := List.erase_of_not_mem (apart e idle)
    have kept : ∀ other ∈ lru.erase e, other ∈ lru := fun other => List.mem_of_mem_erase
    refine ⟨changed, computed, ring, ?_, distinct⟩
    rw [elsewhere]
    exact listed.inUseRing.frame same (by grind)
  · obtain ⟨changed, computed, ring, same⟩ := unlink_handle listed.inUseRing busy listed.distinct.of_append_right
    have elsewhere : lru.erase e = lru := List.erase_of_not_mem fun idle => apart e idle busy
    have kept : ∀ other ∈ inUse.erase e, other ∈ inUse := fun other => List.mem_of_mem_erase
    refine ⟨changed, computed, ?_, ring, distinct⟩
    rw [elsewhere]
    exact listed.lruRing.frame same (by grind)

theorem appendLru (listed : Listed links lru inUse) (fresh : e ∉ lru ++ inUse) :
    ∃ changed, links.linkLast .lru (.handle e) = some changed ∧ Listed changed (lru ++ [e]) inUse := by
  have apart : ∀ other ∈ lru, other ∉ inUse := fun other => listed.disjoint
  have unlisted : Node.handle e ∉ Node.lru :: lru.map .handle := by grind
  obtain ⟨changed, computed, ring, same⟩ := listed.lruRing.linkLast unlisted
  refine ⟨changed, computed, by simpa using ring, listed.inUseRing.frame same (by grind), ?_⟩
  have distinct := listed.distinct
  grind

theorem appendInUse (listed : Listed links lru inUse) (fresh : e ∉ lru ++ inUse) :
    ∃ changed, links.linkLast .inUse (.handle e) = some changed ∧ Listed changed lru (inUse ++ [e]) := by
  have apart : ∀ other ∈ lru, other ∉ inUse := fun other => listed.disjoint
  have unlisted : Node.handle e ∉ Node.inUse :: inUse.map .handle := by grind
  obtain ⟨changed, computed, ring, same⟩ := listed.inUseRing.linkLast unlisted
  refine ⟨changed, computed, listed.lruRing.frame same (by grind), by simpa using ring, ?_⟩
  have distinct := listed.distinct
  grind

/-- The links of a handle that is on no list do not matter. -/
theorem frame {changed : Links Node} (listed : Listed links lru inUse) (same : links.SameOutside changed [.handle e])
    (unlisted : e ∉ lru ++ inUse) : Listed changed lru inUse := by
  refine ⟨listed.lruRing.frame same ?_, listed.inUseRing.frame same ?_, listed.distinct⟩
  · grind
  · grind

end Listed

def LRUCache.deletions (cache : LRUCache V D) (e : Nat) : Nat :=
  (cache.deleterCalls.map DeleterCall.handle).count e

def chargeOf (handles : Handles V D) (e : Nat) : UInt64 := (handles e).elim 0 LRUHandle.charge

/-- The charges of some entries in the machine's arithmetic. -/
def total (handles : Handles V D) (entries : List Nat) : UInt64 := (entries.map (chargeOf handles)).sum

/-- An address holds no handle yet, or its entry is in the cache with or without holders,
or out of the cache with holders left, or gone. -/
inductive Settled (cache : LRUCache V D) (held lru inUse : List Nat) (e : Nat) : Prop
  | unused (absent : cache.handles e = none) (fresh : cache.allocated ≤ e) (released : held.count e = 0)
      (unlisted : e ∉ lru ++ inUse) (calls : cache.deletions e = 0)
  | busy {handle : LRUHandle V D} (present : cache.handles e = some handle) (old : e < cache.allocated)
      (cached : handle.inCache = true) (refs : handle.refs = held.count e + 1) (holders : 0 < held.count e)
      (otherwise : e ∉ lru) (listed : e ∈ inUse) (calls : cache.deletions e = 0)
  | idle {handle : LRUHandle V D} (present : cache.handles e = some handle) (old : e < cache.allocated)
      (cached : handle.inCache = true) (refs : handle.refs = 1) (released : held.count e = 0)
      (listed : e ∈ lru) (otherwise : e ∉ inUse) (calls : cache.deletions e = 0)
  | detached {handle : LRUHandle V D} (present : cache.handles e = some handle) (old : e < cache.allocated)
      (cached : handle.inCache = false) (refs : handle.refs = held.count e) (holders : 0 < held.count e)
      (unlisted : e ∉ lru ++ inUse) (calls : cache.deletions e = 0)
  | deleted (absent : cache.handles e = none) (old : e < cache.allocated) (released : held.count e = 0)
      (unlisted : e ∉ lru ++ inUse) (calls : cache.deletions e = 1)

/-- The same data at an address. -/
structure Alike (before after : LRUCache V D) (held heldAfter lru lruAfter inUse inUseAfter : List Nat) (e : Nat) :
    Prop where
  handle : after.handles e = before.handles e
  allocated : e < after.allocated ↔ e < before.allocated
  calls : after.deletions e = before.deletions e
  holders : heldAfter.count e = held.count e
  idle : e ∈ lruAfter ↔ e ∈ lru
  busy : e ∈ inUseAfter ↔ e ∈ inUse

theorem Settled.congr {before after : LRUCache V D} {held heldAfter lru lruAfter inUse inUseAfter : List Nat} {e : Nat}
    (settled : Settled before held lru inUse e)
    (alike : Alike before after held heldAfter lru lruAfter inUse inUseAfter e) :
    Settled after heldAfter lruAfter inUseAfter e := by
  have both : e ∈ lruAfter ++ inUseAfter ↔ e ∈ lru ++ inUse := by
    rw [List.mem_append, List.mem_append, alike.idle, alike.busy]
  have handle := alike.handle
  have calls := alike.calls
  have holders := alike.holders
  have allocated := alike.allocated
  cases settled with
  | unused absent fresh released unlisted uncalled =>
    exact .unused (handle.trans absent) (by omega) (holders.trans released) (both.not.mpr unlisted)
      (calls.trans uncalled)
  | busy present old cached refs holding otherwise listed uncalled =>
    exact .busy (handle.trans present) (allocated.mpr old) cached (by omega) (by omega) (alike.idle.not.mpr otherwise)
      (alike.busy.mpr listed) (calls.trans uncalled)
  | idle present old cached refs released listed otherwise uncalled =>
    exact .idle (handle.trans present) (allocated.mpr old) cached refs (holders.trans released)
      (alike.idle.mpr listed) (alike.busy.not.mpr otherwise) (calls.trans uncalled)
  | detached present old cached refs holding unlisted uncalled =>
    exact .detached (handle.trans present) (allocated.mpr old) cached (by omega) (by omega) (both.not.mpr unlisted)
      (calls.trans uncalled)
  | deleted absent old released unlisted called =>
    exact .deleted (handle.trans absent) (allocated.mpr old) (holders.trans released) (both.not.mpr unlisted)
      (calls.trans called)

/-- All of the books but the table. -/
structure Kept (cache : LRUCache V D) (held lru inUse : List Nat) : Prop where
  listed : Listed cache.links lru inUse
  settled : ∀ e, Settled cache held lru inUse e
  usage : cache.usage = total cache.handles (lru ++ inUse)

/-- What no reference counting changes: the entry as it was inserted. -/
def LRUHandle.payload (handle : LRUHandle V D) : V × D × UInt64 × Key × Nat :=
  (handle.value, handle.deleter, handle.charge, handle.key, handle.hash)

/-- What a step leaves alone, given the entries that it keeps in the cache. -/
structure Frame (before after : LRUCache V D) (entries : List Nat) : Prop where
  capacity : after.capacity = before.capacity
  allocated : after.allocated = before.allocated
  payload : ∀ e ∈ entries, (after.handles e).map LRUHandle.payload = (before.handles e).map LRUHandle.payload

theorem Frame.trans {before middle after : LRUCache V D} {entries fewer : List Nat}
    (first : Frame before middle entries) (second : Frame middle after fewer) (inside : fewer ⊆ entries) :
    Frame before after fewer where
  capacity := second.capacity.trans first.capacity
  allocated := second.allocated.trans first.allocated
  payload := fun e member => (second.payload e member).trans (first.payload e (inside member))

theorem Frame.refl (cache : LRUCache V D) (entries : List Nat) : Frame cache cache entries :=
  ⟨rfl, rfl, fun _ _ => rfl⟩

theorem Frame.sameKeys {before after : LRUCache V D} {entries : List Nat} (frame : Frame before after entries) :
    HashMap.SameKeys before.handles after.handles entries := by
  intro e member
  have same := congrArg (Option.map fun payload => payload.2.2.2) (frame.payload e member)
  simpa [LRUHandle.payload, Function.comp_def] using same

theorem Frame.chargeOf {before after : LRUCache V D} {entries : List Nat} (frame : Frame before after entries) {e : Nat}
    (member : e ∈ entries) : chargeOf after.handles e = chargeOf before.handles e := by
  have same := congrArg (Option.map fun payload => payload.2.2.1) (frame.payload e member)
  cases present : after.handles e <;> cases earlier : before.handles e <;>
    simp_all [LRUHandle.payload, Cache.chargeOf]

theorem Frame.total {before after : LRUCache V D} {entries : List Nat} (frame : Frame before after entries) :
    total after.handles entries = total before.handles entries :=
  congrArg List.sum (List.map_congr_left fun _ member => frame.chargeOf member)

theorem total_perm {handles : Handles V D} {left right : List Nat} (perm : left.Perm right) :
    total handles left = total handles right := (perm.map _).sum_eq

theorem total_cons (handles : Handles V D) (e : Nat) (rest : List Nat) :
    total handles (e :: rest) = chargeOf handles e + total handles rest := List.sum_cons

namespace Kept

variable {cache after : LRUCache V D} {held heldAfter lru lruAfter inUse inUseAfter : List Nat} {e : Nat}

/-- A step that moves one entry. -/
theorem moved (kept : Kept cache held lru inUse) (e : Nat) (listed : Listed after.links lruAfter inUseAfter)
    (self : Settled after heldAfter lruAfter inUseAfter e)
    (others : ∀ other, other ≠ e → Alike cache after held heldAfter lru lruAfter inUse inUseAfter other)
    (usage : after.usage = total after.handles (lruAfter ++ inUseAfter)) :
    Kept after heldAfter lruAfter inUseAfter := by
  refine ⟨listed, fun other => ?_, usage⟩
  by_cases same : other = e
  · exact same ▸ self
  · exact (kept.settled other).congr (others other same)

/-- A step that counts references to one entry and may move it to the other list. -/
theorem recount (kept : Kept cache held lru inUse) (heldAfter : List Nat) (refs : Nat) {handle : LRUHandle V D}
    {linked : Links Node} (present : cache.handles e = some handle) (listed : Listed linked lruAfter inUseAfter)
    (perm : (lruAfter ++ inUseAfter).Perm (lru ++ inUse))
    (self : Settled ({ cache with links := linked }.setHandle e { handle with refs }) heldAfter lruAfter inUseAfter e)
    (others : ∀ other, other ≠ e → heldAfter.count other = held.count other ∧ (other ∈ lruAfter ↔ other ∈ lru) ∧
      (other ∈ inUseAfter ↔ other ∈ inUse)) :
    Kept ({ cache with links := linked }.setHandle e { handle with refs }) heldAfter lruAfter inUseAfter ∧
      Frame cache ({ cache with links := linked }.setHandle e { handle with refs }) (lru ++ inUse) := by
  have frame : Frame cache ({ cache with links := linked }.setHandle e { handle with refs }) (lru ++ inUse) := by
    refine ⟨rfl, rfl, fun other _ => ?_⟩
    by_cases same : other = e
    · subst same
      simp [LRUCache.setHandle, present, LRUHandle.payload]
    · simp [LRUCache.setHandle, Function.update_of_ne same]
  refine ⟨kept.moved e listed self ?_ ?_, frame⟩
  · intro other different
    obtain ⟨holders, idle, busy⟩ := others other different
    exact ⟨Function.update_of_ne different .., .rfl, rfl, holders, idle, busy⟩
  · rw [total_perm perm, frame.total]
    exact kept.usage

/-- Taking a reference always returns, also where the count wraps. -/
theorem ref_returns (kept : Kept cache held lru inUse) (member : e ∈ lru ++ inUse) :
    ∃ after, cache.ref e = some after := by
  obtain ⟨handle, present⟩ : ∃ handle, cache.handles e = some handle := by
    cases kept.settled e with
    | unused _ _ _ unlisted => exact absurd member unlisted
    | busy present => exact ⟨_, present⟩
    | idle present => exact ⟨_, present⟩
    | detached present => exact ⟨_, present⟩
    | deleted _ _ _ unlisted => exact absurd member unlisted
  obtain ⟨removed, removing, fewer⟩ := kept.listed.remove member
  have unlisted : e ∉ lru.erase e ++ inUse.erase e := by
    have distinct := kept.listed.distinct
    simp [distinct.of_append_left.not_mem_erase, distinct.of_append_right.not_mem_erase]
  obtain ⟨linked, appending, -⟩ := fewer.appendInUse unlisted
  by_cases alone : handle.refs = 1 ∧ handle.inCache
  · exact ⟨_, by simp only [LRUCache.ref, present, alone, LRUCache.lruRemove, removing, LRUCache.lruAppend, appending,
      Option.bind_eq_bind, Option.bind_some, Option.pure_def, and_self, if_true]; rfl⟩
  · exact ⟨_, by simp only [LRUCache.ref, present, alone, Option.bind_eq_bind, Option.bind_some, if_false]; rfl⟩

theorem ref (kept : Kept cache held lru inUse) (member : e ∈ lru ++ inUse) (fits : held.count e + 2 < 2 ^ 32) :
    ∃ after inUseAfter, cache.ref e = some after ∧ Kept after (e :: held) (lru.erase e) inUseAfter ∧
      (lru.erase e ++ inUseAfter).Perm (lru ++ inUse) ∧ Frame cache after (lru ++ inUse) ∧
      after.table = cache.table := by
  have counts : ∀ other, other ≠ e → (e :: held).count other = held.count other := fun other different =>
    List.count_cons_of_ne different.symm
  have one : (e :: held).count e = held.count e + 1 := List.count_cons_self
  cases kept.settled e with
  | unused _ _ _ unlisted => exact absurd member unlisted
  | detached _ _ _ _ _ unlisted => exact absurd member unlisted
  | deleted _ _ _ unlisted => exact absurd member unlisted
  | @idle handle present old cached refs released listed otherwise calls =>
    obtain ⟨removed, removing, fewer⟩ := kept.listed.remove member
    rw [List.erase_of_not_mem otherwise] at fewer
    have erased : e ∉ lru.erase e := kept.listed.distinct.of_append_left.not_mem_erase
    have unlisted : e ∉ lru.erase e ++ inUse := by simp [erased, otherwise]
    obtain ⟨linked, appending, moved⟩ := fewer.appendInUse unlisted
    have perm : (lru.erase e ++ (inUse ++ [e])).Perm (lru ++ inUse) := by
      rw [← List.append_assoc]
      exact (List.perm_append_singleton ..).trans ((List.perm_cons_erase listed).append_right inUse).symm
    have computed : cache.ref e = some ({ cache with links := linked }.setHandle e
        { handle with refs := (handle.refs + 1) % 2 ^ 32 }) := by
      simp [LRUCache.ref, present, refs, cached, LRUCache.lruRemove, removing, LRUCache.lruAppend, appending]
    obtain ⟨books, frame⟩ := kept.recount (e :: held) ((handle.refs + 1) % 2 ^ 32) present moved perm
      (.busy (Function.update_self ..) old cached (by simp only; omega) (by omega) erased (by simp) calls)
      fun other different => ⟨counts other different, List.mem_erase_of_ne different, by simp [different]⟩
    exact ⟨_, _, computed, books, perm, frame, rfl⟩
  | @busy handle present old cached refs holders otherwise listed calls =>
    have computed : cache.ref e = some (cache.setHandle e { handle with refs := (handle.refs + 1) % 2 ^ 32 }) := by
      have several : handle.refs ≠ 1 := by omega
      simp [LRUCache.ref, present, several]
    rw [List.erase_of_not_mem otherwise]
    obtain ⟨books, frame⟩ := kept.recount (e :: held) ((handle.refs + 1) % 2 ^ 32) present kept.listed (.refl _)
      (.busy (Function.update_self ..) old cached (by simp only; omega) (by omega) otherwise listed calls)
      fun other different => ⟨counts other different, .rfl, .rfl⟩
    exact ⟨_, _, computed, books, .refl _, frame, rfl⟩

theorem total_update {handles : Handles V D} {entries : List Nat} (unlisted : e ∉ entries)
    (value : Option (LRUHandle V D)) : total (Function.update handles e value) entries = total handles entries := by
  refine congrArg List.sum (List.map_congr_left fun other member => ?_)
  have different : other ≠ e := fun same => unlisted (same ▸ member)
  simp [chargeOf, Function.update_of_ne different]

theorem deletions_delete (cache : LRUCache V D) (e : Nat) (handle : LRUHandle V D) (other : Nat) :
    (cache.delete e handle).deletions other = cache.deletions other + if other = e then 1 else 0 := by
  have appended : (cache.delete e handle).deleterCalls.map DeleterCall.handle =
      cache.deleterCalls.map DeleterCall.handle ++ [e] := by simp [LRUCache.delete]
  rw [LRUCache.deletions, appended, List.count_append, List.count_singleton]
  by_cases same : other = e
  · simp [same, LRUCache.deletions]
  · simp [same, Ne.symm same, LRUCache.deletions]

theorem release (kept : Kept cache held lru inUse) (holding : 0 < held.count e) :
    ∃ after inUseAfter, cache.release e = some after ∧
      Kept after (held.erase e) (if e ∈ inUse ∧ held.count e = 1 then lru ++ [e] else lru) inUseAfter ∧
      ((if e ∈ inUse ∧ held.count e = 1 then lru ++ [e] else lru) ++ inUseAfter).Perm (lru ++ inUse) ∧
      Frame cache after (lru ++ inUse) ∧ after.table = cache.table := by
  have counts : ∀ other, other ≠ e → (held.erase e).count other = held.count other := fun other different =>
    List.count_erase_of_ne different
  have one : (held.erase e).count e = held.count e - 1 := List.count_erase_self
  cases kept.settled e with
  | unused _ _ released => omega
  | idle _ _ _ _ released => omega
  | deleted _ _ released => omega
  | @busy handle present old cached refs holders otherwise listed calls =>
    have positive : handle.refs > 0 := by omega
    by_cases last : held.count e = 1
    · obtain ⟨removed, removing, fewer⟩ := kept.listed.remove (List.mem_append_right lru listed)
      rw [List.erase_of_not_mem otherwise] at fewer
      have erased : e ∉ inUse.erase e := kept.listed.distinct.of_append_right.not_mem_erase
      have unlisted : e ∉ lru ++ inUse.erase e := by simp [erased, otherwise]
      obtain ⟨linked, appending, moved⟩ := fewer.appendLru unlisted
      have perm : (lru ++ [e] ++ inUse.erase e).Perm (lru ++ inUse) := by
        rw [List.append_assoc]
        exact (List.perm_cons_erase listed).symm.append_left lru
      have computed : cache.release e = some ({ cache with links := linked }.setHandle e
          { handle with refs := handle.refs - 1 }) := by
        simp [LRUCache.release, LRUCache.unref, present, refs, cached, last, LRUCache.lruRemove, LRUCache.setHandle,
          removing, LRUCache.lruAppend, appending]
      obtain ⟨books, frame⟩ := kept.recount (held.erase e) (handle.refs - 1) present moved perm
        (.idle (Function.update_self ..) old cached (by simp only; omega) (by omega) (by simp) erased calls)
        fun other different => ⟨counts other different, by simp [different], List.mem_erase_of_ne different⟩
      rw [if_pos ⟨listed, last⟩]
      exact ⟨_, _, computed, books, perm, frame, rfl⟩
    · have computed : cache.release e = some (cache.setHandle e { handle with refs := handle.refs - 1 }) := by
        have more : handle.refs - 1 ≠ 0 := by omega
        have several : handle.refs ≠ 2 := by omega
        simp [LRUCache.release, LRUCache.unref, present, positive, more, several]
      obtain ⟨books, frame⟩ := kept.recount (held.erase e) (handle.refs - 1) present kept.listed (.refl _)
        (.busy (Function.update_self ..) old cached (by simp only; omega) (by omega) otherwise listed calls)
        fun other different => ⟨counts other different, .rfl, .rfl⟩
      rw [if_neg fun both => last both.2]
      exact ⟨_, _, computed, books, .refl _, frame, rfl⟩
  | @detached handle present old cached refs holders unlisted calls =>
    have positive : handle.refs > 0 := by omega
    have elsewhere : e ∉ inUse := fun inside => unlisted (List.mem_append_right lru inside)
    rw [if_neg fun both => elsewhere both.1]
    by_cases last : held.count e = 1
    · have computed : cache.release e = some (cache.delete e { handle with refs := handle.refs - 1 }) := by
        simp [LRUCache.release, LRUCache.unref, present, refs, last, cached]
      have frame : Frame cache (cache.delete e { handle with refs := handle.refs - 1 }) (lru ++ inUse) := by
        refine ⟨rfl, rfl, fun other member => ?_⟩
        have different : other ≠ e := fun same => unlisted (same ▸ member)
        simp [LRUCache.delete, Function.update_of_ne different]
      refine ⟨_, inUse, computed, ?_, .refl _, frame, rfl⟩
      refine kept.moved e (kept.listed.frame (Links.sameOutside_forget cache.links (.handle e)) unlisted) ?_ ?_ ?_
      · exact .deleted (Function.update_self ..) old (by omega) unlisted (by rw [deletions_delete, calls, if_pos rfl])
      · intro other different
        refine ⟨Function.update_of_ne different .., .rfl, ?_, counts other different, .rfl, .rfl⟩
        rw [deletions_delete, if_neg different, Nat.add_zero]
      · exact kept.usage.trans (total_update unlisted none).symm
    · have computed : cache.release e = some (cache.setHandle e { handle with refs := handle.refs - 1 }) := by
        have more : handle.refs - 1 ≠ 0 := by omega
        simp [LRUCache.release, LRUCache.unref, present, positive, more, cached]
      obtain ⟨books, frame⟩ := kept.recount (held.erase e) (handle.refs - 1) present kept.listed (.refl _)
        (.detached (Function.update_self ..) old cached (by simp only; omega) (by omega) unlisted calls)
        fun other different => ⟨counts other different, .rfl, .rfl⟩
      exact ⟨_, _, computed, books, .refl _, frame, rfl⟩

theorem perm_erase (kept : Kept cache held lru inUse) (member : e ∈ lru ++ inUse) :
    (lru ++ inUse).Perm (e :: (lru.erase e ++ inUse.erase e)) := by
  refine (List.perm_cons_erase member).trans (List.Perm.of_eq (congrArg (e :: ·) ?_))
  by_cases idle : e ∈ lru
  · rw [List.erase_append_left _ idle, List.erase_of_not_mem (kept.listed.disjoint idle)]
  · rw [List.erase_append_right _ idle, List.erase_of_not_mem idle]

theorem unlisted_erase (kept : Kept cache held lru inUse) (member : e ∈ lru ++ inUse) :
    e ∉ lru.erase e ++ inUse.erase e :=
  (List.nodup_cons.mp ((kept.perm_erase member).nodup_iff.mp kept.listed.distinct)).1

/-- A step that takes one entry off its list. -/
theorem left (kept : Kept cache held lru inUse) (after : LRUCache V D) (member : e ∈ lru ++ inUse)
    (listed : Listed after.links (lru.erase e) (inUse.erase e))
    (self : Settled after held (lru.erase e) (inUse.erase e) e)
    (others : ∀ other, other ≠ e → after.handles other = cache.handles other ∧
      after.deletions other = cache.deletions other)
    (capacity : after.capacity = cache.capacity) (allocated : after.allocated = cache.allocated)
    (usage : after.usage = cache.usage - chargeOf cache.handles e) :
    Kept after held (lru.erase e) (inUse.erase e) ∧ Frame cache after (lru.erase e ++ inUse.erase e) := by
  have frame : Frame cache after (lru.erase e ++ inUse.erase e) := by
    refine ⟨capacity, allocated, fun other stays => ?_⟩
    rw [(others other fun same => kept.unlisted_erase member (same ▸ stays)).1]
  refine ⟨kept.moved e listed self ?_ ?_, frame⟩
  · intro other different
    obtain ⟨handle, calls⟩ := others other different
    exact ⟨handle, by rw [allocated], calls, rfl, List.mem_erase_of_ne different, List.mem_erase_of_ne different⟩
  · rw [usage, frame.total, kept.usage, total_perm (kept.perm_erase member), total_cons, add_sub_cancel_left]

/-- The entry has lost its place in the cache, and lives on while clients hold it. -/
theorem finishErase (kept : Kept cache held lru inUse) (member : e ∈ lru ++ inUse) :
    ∃ after, cache.finishErase (some e) = some (after, true) ∧ Kept after held (lru.erase e) (inUse.erase e) ∧
      Frame cache after (lru.erase e ++ inUse.erase e) ∧ after.table = cache.table := by
  obtain ⟨removed, removing, fewer⟩ := kept.listed.remove member
  have unlisted := kept.unlisted_erase member
  cases kept.settled e with
  | unused _ _ _ absent => exact absurd member absent
  | detached _ _ _ _ _ absent => exact absurd member absent
  | deleted _ _ _ absent => exact absurd member absent
  | @idle handle present old cached refs released listed otherwise calls =>
    let emptied := { cache with links := removed, usage := cache.usage - handle.charge }.setHandle e
      { handle with inCache := false }
    let gone := emptied.delete e { handle with inCache := false, refs := handle.refs - 1 }
    have computed : cache.finishErase (some e) = some (gone, true) := by
      simp [LRUCache.finishErase, LRUCache.unref, LRUCache.lruRemove, LRUCache.setHandle, present, cached, removing,
        refs, gone, emptied]
    have usage : gone.usage = cache.usage - chargeOf cache.handles e := by
      simp [gone, emptied, LRUCache.delete, LRUCache.setHandle, chargeOf, present]
    have calls : ∀ other, gone.deletions other = cache.deletions other + if other = e then 1 else 0 :=
      deletions_delete emptied e _
    have self : Settled gone held (lru.erase e) (inUse.erase e) e :=
      .deleted (Function.update_self ..) old released unlisted (by simp_all)
    have others : ∀ other, other ≠ e → gone.handles other = cache.handles other ∧
        gone.deletions other = cache.deletions other := by
      intro other different
      refine ⟨?_, by rw [calls, if_neg different, Nat.add_zero]⟩
      simp [gone, emptied, LRUCache.delete, LRUCache.setHandle, Function.update_of_ne different]
    have listed := fewer.frame (Links.sameOutside_forget removed (.handle e)) unlisted
    obtain ⟨books, frame⟩ := kept.left gone member listed self others rfl rfl usage
    exact ⟨gone, computed, books, frame, rfl⟩
  | @busy handle present old cached refs holders otherwise listed calls =>
    let emptied := { cache with links := removed, usage := cache.usage - handle.charge }.setHandle e
      { handle with inCache := false }
    let loose := emptied.setHandle e { handle with inCache := false, refs := handle.refs - 1 }
    have computed : cache.finishErase (some e) = some (loose, true) := by
      have more : handle.refs - 1 ≠ 0 := by omega
      have positive : handle.refs > 0 := by omega
      simp [LRUCache.finishErase, LRUCache.unref, LRUCache.lruRemove, LRUCache.setHandle, present, cached, removing,
        more, positive, loose, emptied]
    have usage : loose.usage = cache.usage - chargeOf cache.handles e := by
      simp [loose, emptied, LRUCache.setHandle, chargeOf, present]
    have self : Settled loose held (lru.erase e) (inUse.erase e) e :=
      .detached (Function.update_self ..) old rfl (by simp only; omega) holders unlisted calls
    have others : ∀ other, other ≠ e → loose.handles other = cache.handles other ∧
        loose.deletions other = cache.deletions other := fun other different =>
      ⟨by simp [loose, emptied, LRUCache.setHandle, Function.update_of_ne different], rfl⟩
    obtain ⟨books, frame⟩ := kept.left loose member fewer self others rfl rfl usage
    exact ⟨loose, computed, books, frame, rfl⟩

theorem unused_allocated (kept : Kept cache held lru inUse) :
    cache.handles cache.allocated = none ∧ held.count cache.allocated = 0 ∧ cache.allocated ∉ lru ++ inUse ∧
      cache.deletions cache.allocated = 0 := by
  cases kept.settled cache.allocated with
  | unused absent fresh released unlisted calls => exact ⟨absent, released, unlisted, calls⟩
  | busy _ old => exact absurd old (Nat.lt_irrefl _)
  | idle _ old => exact absurd old (Nat.lt_irrefl _)
  | detached _ old => exact absurd old (Nat.lt_irrefl _)
  | deleted _ old => exact absurd old (Nat.lt_irrefl _)

/-- A new entry that its caller holds. -/
theorem takeIn (kept : Kept cache held lru inUse) (handle : LRUHandle V D) (alone : handle.refs = 1) :
    ∃ admitted, (cache.malloc handle).takeIn cache.allocated handle = some admitted ∧
      Kept admitted (cache.allocated :: held) lru (inUse ++ [cache.allocated]) ∧ admitted.table = cache.table ∧
      admitted.capacity = cache.capacity ∧ admitted.allocated = cache.allocated + 1 ∧
      admitted.handles = Function.update cache.handles cache.allocated
        (some { handle with refs := handle.refs + 1, inCache := true }) := by
  obtain ⟨absent, released, unlisted, calls⟩ := kept.unused_allocated
  obtain ⟨linked, appending, listed⟩ := kept.listed.appendInUse unlisted
  have one : (cache.allocated :: held).count cache.allocated = 1 := by rw [List.count_cons_self, released]
  let cached := { handle with refs := handle.refs + 1, inCache := true }
  let admitted := { cache with
    links := linked
    usage := cache.usage + handle.charge
    allocated := cache.allocated + 1
    handles := Function.update cache.handles cache.allocated (some cached) }
  have computed : (cache.malloc handle).takeIn cache.allocated handle = some admitted := by
    simp [LRUCache.takeIn, LRUCache.malloc, LRUCache.setHandle, LRUCache.lruAppend, appending, admitted, cached]
  refine ⟨admitted, computed, kept.moved cache.allocated listed ?_ ?_ ?_, rfl, rfl, rfl, rfl⟩
  · have otherwise : cache.allocated ∉ lru := fun inside => unlisted (List.mem_append_left inUse inside)
    exact .busy (Function.update_self ..) (Nat.lt_succ_self _) rfl (by simp [cached, one, alone]) (by omega) otherwise
      (by simp) calls
  · intro other different
    have order : other < cache.allocated + 1 ↔ other < cache.allocated := by omega
    exact ⟨Function.update_of_ne different .., order, rfl, List.count_cons_of_ne different.symm, .rfl,
      by simp [different]⟩
  · have perm : (lru ++ (inUse ++ [cache.allocated])).Perm (cache.allocated :: (lru ++ inUse)) := by
      rw [← List.append_assoc]
      exact List.perm_append_singleton ..
    rw [total_perm perm, total_cons, total_update unlisted]
    simp [admitted, cached, kept.usage, chargeOf, add_comm]

/-- A new entry that only its caller knows. -/
theorem bypass (kept : Kept cache held lru inUse) (handle : LRUHandle V D) (alone : handle.refs = 1)
    (uncached : handle.inCache = false) :
    Kept { cache.malloc handle with links := cache.links.setNext (.handle cache.allocated) none }
      (cache.allocated :: held) lru inUse := by
  obtain ⟨absent, released, unlisted, calls⟩ := kept.unused_allocated
  have one : (cache.allocated :: held).count cache.allocated = 1 := by rw [List.count_cons_self, released]
  have same : cache.links.SameOutside (cache.links.setNext (.handle cache.allocated) none)
      [.handle cache.allocated] := by
    intro other outside
    have different : other ≠ .handle cache.allocated := by simpa using outside
    simp [different]
  refine kept.moved cache.allocated (kept.listed.frame same unlisted) ?_ ?_ ?_
  · exact .detached (Function.update_self ..) (Nat.lt_succ_self _) uncached (by rw [one, alone]) (by omega) unlisted
      calls
  · intro other different
    have order : other < cache.allocated + 1 ↔ other < cache.allocated := by omega
    exact ⟨Function.update_of_ne different .., order, rfl, List.count_cons_of_ne different.symm, .rfl, .rfl⟩
  · exact kept.usage.trans (total_update unlisted _).symm

end Kept

end Cache

end Enigma
