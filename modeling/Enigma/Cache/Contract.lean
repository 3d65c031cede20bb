import Enigma.Cache.ManyHandles

/-! What clients of the cache may count on at any time between their calls, as long as
its counters do not overflow. -/

namespace Enigma

namespace Cache

variable {V D : Type}

/-- The books of a cache, told by what is in its memory. -/
structure Balanced (hashOf : Key → Nat) (within : Session V D → Call V D → Prop) (session : Session V D) : Prop where
  listed : ∃ lru inUse : List Nat, session.cache.links.Ring .lru (lru.map .handle) ∧
    session.cache.links.Ring .inUse (inUse.map .handle) ∧ (∀ e ∈ lru ++ inUse, e ∈ session.cache.cached) ∧
    ∀ e handle, session.cache.handles e = some handle → handle.inCache = true →
      handle.refs = 1 ∧ lru.count e = 1 ∧ inUse.count e = 0 ∨ 2 ≤ handle.refs ∧ lru.count e = 0 ∧ inUse.count e = 1
  stored : ∀ e, session.cache.table.list.flatten.count e = if e ∈ session.cache.cached then 1 else 0
  onePerKey : ∀ left ∈ session.cache.cached, ∀ right ∈ session.cache.cached,
    keyOf session.cache.handles left = keyOf session.cache.handles right → left = right
  refs : ∀ e handle, session.cache.handles e = some handle →
    handle.refs = session.held.count e + if handle.inCache then 1 else 0
  usage : session.cache.usage.toNat = charges session.cache.handles session.cache.cached
  found : ∀ key, (session.cache.lookup key (hashOf key)).map Prod.snd =
    some (if session.cache.capacity > 0 then lastInserted key session.history else none)
  deleted : ∀ e < session.cache.allocated,
    session.cache.deletions e = if e ∈ session.cache.cached ∨ e ∈ session.held then 0 else 1
  returns : ∀ call : Call V D, call.Permitted session → within session call →
    ∃ after, session.call hashOf call = some after
  destroyed : session.held = [] → ∃ after, session.cache.destroy = some after ∧
    ∀ e < session.cache.allocated, after.deletions e = 1

/-- No counter and no sum of charges overflows. -/
def Call.Bounded (session : Session V D) (call : Call V D) : Prop :=
  call.Counted session ∧ call.chargesAfter session < 2 ^ 64

instance instDecidableBounded (session : Session V D) (call : Call V D) : Decidable (call.Bounded session) :=
  inferInstanceAs (Decidable (call.Counted session ∧ call.chargesAfter session < 2 ^ 64))

theorem total_toNat (handles : Handles V D) (entries : List Nat) :
    (total handles entries).toNat = charges handles entries % 2 ^ 64 := by
  induction entries with
  | nil => rfl
  | cons e rest ih =>
    have sum : charges handles (e :: rest) = (chargeOf handles e).toNat + charges handles rest := List.sum_cons
    rw [total_cons, UInt64.toNat_add, ih, sum, Nat.add_mod_mod]

theorem Reached.charges_lt {hashOf : Key → Nat} {capacity : UInt64} {session : Session V D}
    (reached : Reached hashOf Call.Bounded capacity session) :
    charges session.cache.handles session.cache.cached < 2 ^ 64 := by
  cases reached with
  | new => exact Nat.two_pow_pos 64
  | call earlier permitted bounds returned =>
    obtain ⟨-, lru, inUse, order⟩ := earlier.inOrder fun _ _ => And.left
    obtain ⟨after, -, -, computed, -, carried⟩ := order.call permitted bounds.1
    obtain rfl := Option.some_inj.mp (computed.symm.trans returned)
    exact Nat.lt_of_le_of_lt carried.charges bounds.2

namespace Session.InOrder

variable {hashOf : Key → Nat} {session : Session V D} {lru inUse : List Nat}

theorem listed (order : InOrder hashOf session lru inUse) {e : Nat} {handle : LRUHandle V D}
    (present : session.cache.handles e = some handle) (cached : handle.inCache = true) :
    handle.refs = 1 ∧ lru.count e = 1 ∧ inUse.count e = 0 ∨ 2 ≤ handle.refs ∧ lru.count e = 0 ∧ inUse.count e = 1 := by
  have distinct := order.sound.listed.distinct
  cases order.sound.settled e with
  | unused absent => cases absent.symm.trans present
  | busy found _ _ refs holders otherwise listed =>
    obtain rfl := Option.some_inj.mp (found.symm.trans present)
    exact .inr ⟨by omega, List.count_eq_zero.mpr otherwise, List.count_eq_one_of_mem distinct.of_append_right listed⟩
  | idle found _ _ refs _ listed otherwise =>
    obtain rfl := Option.some_inj.mp (found.symm.trans present)
    exact .inl ⟨refs, List.count_eq_one_of_mem distinct.of_append_left listed, List.count_eq_zero.mpr otherwise⟩
  | detached found _ uncached =>
    obtain rfl := Option.some_inj.mp (found.symm.trans present)
    cases uncached.symm.trans cached
  | deleted absent => cases absent.symm.trans present

theorem refs (order : InOrder hashOf session lru inUse) {e : Nat} {handle : LRUHandle V D}
    (present : session.cache.handles e = some handle) :
    handle.refs = session.held.count e + if handle.inCache then 1 else 0 := by
  cases order.sound.settled e with
  | unused absent => cases absent.symm.trans present
  | busy found _ cached refs =>
    obtain rfl := Option.some_inj.mp (found.symm.trans present)
    rw [refs, if_pos cached]
  | idle found _ cached refs released =>
    obtain rfl := Option.some_inj.mp (found.symm.trans present)
    rw [refs, released, if_pos cached]
  | detached found _ uncached refs =>
    obtain rfl := Option.some_inj.mp (found.symm.trans present)
    rw [refs, if_neg (by simp [uncached]), Nat.add_zero]
  | deleted absent => cases absent.symm.trans present

theorem deleted (order : InOrder hashOf session lru inUse) {e : Nat} (old : e < session.cache.allocated) :
    session.cache.deletions e = if e ∈ session.cache.cached ∨ e ∈ session.held then 0 else 1 := by
  have cached := order.sound.mem_cached (e := e)
  cases order.sound.settled e with
  | unused _ fresh => omega
  | busy _ _ _ _ _ _ listed calls => rw [calls, if_pos (.inl (cached.mpr (List.mem_append_right lru listed)))]
  | idle _ _ _ _ _ listed _ calls => rw [calls, if_pos (.inl (cached.mpr (List.mem_append_left inUse listed)))]
  | detached _ _ _ _ holders _ calls => rw [calls, if_pos (.inr (List.count_pos_iff.mp holders))]
  | deleted _ _ released unlisted calls =>
    rw [calls, if_neg]
    rintro (listed | holding)
    · exact unlisted (cached.mp listed)
    · exact List.count_eq_zero.mp released holding

theorem found (order : InOrder hashOf session lru inUse) (key : Key) :
    (session.cache.lookup key (hashOf key)).map Prod.snd =
      some (if session.cache.capacity > 0 then lastInserted key session.history else none) := by
  rcases order.sound.stored.lookup key with ⟨absent, computed⟩ | ⟨e, member, keyed, computed⟩
  · have missing : (if session.cache.capacity > 0 then lastInserted key session.history else none) = none := by
      split
      · rename_i positive
        refine Option.eq_none_iff_forall_ne_some.mpr fun e last => ?_
        obtain ⟨member, keyed⟩ := (order.recent (UInt64.pos_iff_ne_zero.mp positive) key e).mp last
        exact absent e member keyed
      · rfl
    rw [missing]
    simp [LRUCache.lookup, computed]
  · have positive : session.cache.capacity ≠ 0 := fun zero => by
      rw [order.bypassed zero] at member
      exact List.not_mem_nil member
    have last := (order.recent positive key e).mpr ⟨member, keyed⟩
    rw [if_pos (UInt64.pos_iff_ne_zero.mpr positive), last]
    have counted := order.sound.restat { session.cache.stats with totalHits := session.cache.stats.totalHits + 1 }
    obtain ⟨after, taken⟩ := counted.toKept.ref_returns member
    simp [LRUCache.lookup, computed, taken]

end Session.InOrder

/-- Within the bounds of its counters the cache keeps its books, and no assertion fails. -/
theorem balanced_of_bounded_calls {hashOf : Key → Nat} {capacity : UInt64} {session : Session V D}
    (reached : Reached hashOf Call.Bounded capacity session) : Balanced hashOf Call.Bounded session := by
  obtain ⟨-, lru, inUse, order⟩ := reached.inOrder fun _ _ => And.left
  have sound := order.sound
  have perm := sound.cached_perm
  refine ⟨⟨lru, inUse, sound.listed.lruRing, sound.listed.inUseRing, fun e => sound.mem_cached.mpr,
    fun e handle present cached => order.listed present cached⟩, ?_, ?_, fun e handle => order.refs, ?_, order.found,
    fun e => order.deleted, ?_, ?_⟩
  · intro e
    rw [(sound.stored.chained.contents.trans perm.symm).count_eq]
    exact (List.nodup_range.filter _).count
  · exact fun left first right second => sound.only (sound.mem_cached.mp first) (sound.mem_cached.mp second)
  · rw [sound.usage, total_toNat, ← Sound.charges_perm perm, Nat.mod_eq_of_lt reached.charges_lt]
  · intro call permitted bounds
    obtain ⟨after, -, -, returned, -⟩ := order.call permitted bounds.1
    exact ⟨after, returned⟩
  · intro released
    rw [released] at sound
    exact sound.destroy

/-- A session with an eviction, a replaced entry and an erased one that is still held. -/
def sampleCalls : List (Call Unit Unit) :=
  [.insert [1] () 1 (), .release 0, .insert [2] () 1 (), .insert [2] () 1 (), .lookup [2], .erase [2], .release 2]

theorem balanced_of_bounded_calls_sample :
    ∃ session : Session Unit Unit, session.held = [2, 1] ∧
      Session.run List.length Call.Bounded (.new 1) sampleCalls = some session ∧
      Balanced List.length Call.Bounded session := by
  have held : (Session.run List.length Call.Bounded (.new 1) sampleCalls).map Session.held = some [2, 1] := by decide
  obtain ⟨session, returned, same⟩ := Option.map_eq_some_iff.mp held
  exact ⟨session, same, returned, balanced_of_bounded_calls (Reached.new.run returned)⟩

/-- Without the bounds an assertion fails, and the usage is not what the entries are charged. -/
theorem not_balanced :
    (∃ session : Session Unit Unit, Reached sameHash (fun _ _ => True) 1 session ∧ 0 ∈ session.held ∧
        session.call sameHash (.release 0) = none) ∧
      (∃ session : Session Unit Unit, Reached sameHash (fun _ _ => True) (2 ^ 63) session ∧ session.cache.usage = 0 ∧
        charges session.cache.handles session.cache.cached = 2 ^ 64) ∧
      ¬∀ session : Session Unit Unit, Reached sameHash (fun _ _ => True) 1 session →
        Balanced sameHash (fun _ _ => True) session := by
  obtain ⟨history, reached⟩ := reached_lone (2 ^ 32 - 2) (Nat.le_refl _)
  have held : 0 ∈ List.replicate (2 ^ 32 - 2 + 1) 0 := List.mem_replicate.mpr ⟨by decide, rfl⟩
  have fails : Session.call sameHash ⟨loneCache ((2 ^ 32 - 2 + 2) % 2 ^ 32) (.ofNat (2 ^ 32 - 2)),
      List.replicate (2 ^ 32 - 2 + 1) 0, history⟩ (.release 0) = none := rfl
  have overflow : ((Session.run sameHash (fun _ _ => True) (.new (2 ^ 63))
      [.insert [1] () (2 ^ 63) (), .insert [2] () (2 ^ 63) ()] : Option (Session Unit Unit)).map fun session =>
        (session.cache.usage, charges session.cache.handles session.cache.cached)) = some (0, 2 ^ 64) := by
    decide +kernel
  obtain ⟨session, returned, same⟩ := Option.map_eq_some_iff.mp overflow
  obtain ⟨usage, charged⟩ := Prod.mk.inj same
  refine ⟨⟨_, reached, held, fails⟩, ⟨session, Reached.new.run returned, usage, charged⟩, fun balanced => ?_⟩
  obtain ⟨after, returned⟩ := (balanced _ reached).returns (.release 0) held trivial
  cases fails.symm.trans returned

end Cache

end Enigma
