import Enigma.Cache.ThreadedTable

/-! What the hash table is for: a map from keys to handles. The handles live in a
memory that may change from call to call, as long as those in the table keep their
keys and hashes. -/

namespace Enigma

namespace Cache

variable {V D : Type}

inductive TableCall where
  | insert (e : Nat)
  | lookup (key : Key)
  | remove (key : Key)
  deriving DecidableEq

namespace ThreadedMap

def perform (hashOf : Key → Nat) (handles : Handles V D) (map : ThreadedMap) :
    TableCall → Option (ThreadedMap × Option Nat)
  | .insert e => map.insert handles e
  | .lookup key => (map.lookup handles key (hashOf key)).map fun result => (map, result)
  | .remove key => map.remove handles key (hashOf key)

/-- Every call with the memory of the handles that it finds. -/
def run (hashOf : Key → Nat) (map : ThreadedMap) :
    List (Handles V D × TableCall) → Option (ThreadedMap × List (Option Nat))
  | [] => some (map, [])
  | (handles, call) :: later => do
    let (map, result) ← map.perform hashOf handles call
    let (map, results) ← map.run hashOf later
    return (map, result :: results)

end ThreadedMap

/-- The answer of a map, and the map from then on. -/
def answer (handles : Handles V D) (ideal : SortedMap Key Nat) : TableCall → SortedMap Key Nat × Option Nat
  | .insert e =>
    match keyOf handles e with
    | some key => (ideal.insert key e, ideal.find? key)
    | none => (ideal, none)
  | .lookup key => (ideal, ideal.find? key)
  | .remove key => (ideal.erase key, ideal.find? key)

def answers (ideal : SortedMap Key Nat) : List (Handles V D × TableCall) → SortedMap Key Nat × List (Option Nat)
  | [] => (ideal, [])
  | (handles, call) :: later =>
    let (ideal, result) := answer handles ideal call
    let (ideal, results) := answers ideal later
    (ideal, result :: results)

/-- The handles of the map are still there. -/
def Intact (hashOf : Key → Nat) (handles : Handles V D) (ideal : SortedMap Key Nat) : Prop :=
  ∀ key e, ideal.find? key = some e → keyOf handles e = some key ∧ Hashed hashOf handles e

/-- Handles to insert have the hash of their keys, and the table never has 2 ^ 31 elements. -/
def Proper (hashOf : Key → Nat) (ideal : SortedMap Key Nat) : List (Handles V D × TableCall) → Prop
  | [] => True
  | (handles, call) :: later =>
    Intact hashOf handles ideal ∧ (∀ e, call = .insert e → Hashed hashOf handles e) ∧
      (answer handles ideal call).1.size < 2 ^ 31 ∧ Proper hashOf (answer handles ideal call).1 later

namespace ThreadedMap

def values (ideal : SortedMap Key Nat) : List Nat := ideal.bindings.map Prod.snd

structure Refines (hashOf : Key → Nat) (handles : Handles V D) (map : ThreadedMap) (ideal : SortedMap Key Nat) :
    Prop where
  intact : Intact hashOf handles ideal
  table : ∃ table, Represents map table ∧ table.Holds hashOf handles (values ideal)
  power : ∃ power, map.len = 2 ^ power

variable {hashOf : Key → Nat} {handles later : Handles V D} {map : ThreadedMap} {ideal : SortedMap Key Nat}

theorem mem_values {e : Nat} : e ∈ values ideal ↔ ∃ key, ideal.find? key = some e := by
  simp [values, SortedMap.find?_eq_some_iff]

theorem Refines.move (refines : Refines hashOf handles map ideal) (intact : Intact hashOf later ideal) :
    Refines hashOf later map ideal := by
  obtain ⟨table, represents, holds⟩ := refines.table
  refine ⟨intact, ⟨table, represents, holds.congr ?_⟩, refines.power⟩
  intro e member
  obtain ⟨key, found⟩ := mem_values.mp member
  obtain ⟨keyed, handle, allocated, matching⟩ := refines.intact key e found
  obtain ⟨rekeyed, other, present, hashed⟩ := intact key e found
  have before : handle.key = key := by simpa [keyOf, allocated] using keyed
  have after : other.key = key := by simpa [keyOf, present] using rekeyed
  simp [allocated, present, matching, hashed, before, after]

/-- What is stored for a key is found by the key of the handle. -/
theorem Refines.find?_eq (refines : Refines hashOf handles map ideal) {key : Key} {e : Nat} (member : e ∈ values ideal)
    (keyed : keyOf handles e = some key) : ideal.find? key = some e := by
  obtain ⟨other, found⟩ := mem_values.mp member
  cases (refines.intact other e found).1.symm.trans keyed
  exact found

theorem Refines.missing (refines : Refines hashOf handles map ideal) {key : Key}
    (absent : ∀ e ∈ values ideal, keyOf handles e ≠ some key) : ideal.find? key = none := by
  cases found : ideal.find? key with
  | none => rfl
  | some e => exact absurd (refines.intact key e found).1 (absent e (mem_values.mpr ⟨key, found⟩))

theorem values_of_find? {key : Key} {e : Nat} (found : ideal.find? key = some e) :
    (values ideal).Perm (e :: values (ideal.erase key)) :=
  (SortedMap.perm_of_find? found).map Prod.snd

theorem values_insert (key : Key) (e : Nat) : (values (ideal.insert key e)).Perm (e :: values (ideal.erase key)) :=
  (SortedMap.insert_perm ideal key e).map Prod.snd

theorem Refines.lookup (refines : Refines hashOf handles map ideal) (key : Key) :
    map.lookup handles key (hashOf key) = some (ideal.find? key) := by
  obtain ⟨table, represents, holds⟩ := refines.table
  rw [represents.lookup holds]
  rcases holds.lookup key with ⟨absent, computed⟩ | ⟨e, member, keyed, computed⟩
  · rw [computed, refines.missing absent]
  · rw [computed, refines.find?_eq member keyed]

theorem Refines.remove (refines : Refines hashOf handles map ideal) (key : Key) :
    ∃ after, map.remove handles key (hashOf key) = some (after, ideal.find? key) ∧
      Refines hashOf handles after (ideal.erase key) := by
  obtain ⟨table, represents, holds⟩ := refines.table
  have intact : Intact hashOf handles (ideal.erase key) := by
    intro probe e found
    rw [SortedMap.find?_erase] at found
    split at found
    · cases found
    · exact refines.intact probe e found
  rcases holds.remove key with ⟨absent, computed⟩ | ⟨e, rest, after, contents, keyed, computed, kept⟩
  · obtain ⟨shrunk, removed, same, len⟩ := represents.remove holds computed
    have missing := refines.missing absent
    refine ⟨shrunk, missing ▸ removed, intact, ⟨table, same, ?_⟩, len ▸ refines.power⟩
    rw [SortedMap.erase_of_find?_none missing]
    exact holds
  · obtain ⟨shrunk, removed, same, len⟩ := represents.remove holds computed
    have found := refines.find?_eq (contents.mem_iff.mpr (List.mem_cons_self ..)) keyed
    have others := (contents.symm.trans (values_of_find? found)).cons_inv
    exact ⟨shrunk, found ▸ removed, intact, ⟨after, same, kept.perm others⟩, len ▸ refines.power⟩

theorem Refines.insert (refines : Refines hashOf handles map ideal) {e : Nat} {key : Key}
    (keyed : keyOf handles e = some key) (hashed : Hashed hashOf handles e)
    (room : (ideal.insert key e).size < 2 ^ 31) :
    ∃ after, map.insert handles e = some (after, ideal.find? key) ∧
      Refines hashOf handles after (ideal.insert key e) := by
  obtain ⟨table, represents, holds⟩ := refines.table
  obtain ⟨handle, allocated, matching⟩ := id hashed
  have named : handle.key = key := by simpa [keyOf, allocated] using keyed
  have intact : Intact hashOf handles (ideal.insert key e) := by
    intro probe other found
    rw [SortedMap.find?_insert] at found
    split at found
    · rename_i same
      cases found
      exact ⟨same ▸ keyed, hashed⟩
    · exact refines.intact probe other found
  have length : (values (ideal.insert key e)).length < 2 ^ 31 := (List.length_map ..).trans_lt room
  rw [(values_insert key e).length_eq, List.length_cons] at length
  rcases holds.insert allocated matching with ⟨absent, placed⟩ | ⟨old, rest, after, contents, oldKeyed, computed, kept⟩
  · have missing := refines.missing (named ▸ absent)
    rw [SortedMap.erase_of_find?_none missing] at length
    obtain ⟨after, computed, kept⟩ := placed (by omega)
    obtain ⟨grown, inserted, same, power⟩ :=
      represents.insert holds refines.power allocated matching (by omega) computed
    refine ⟨grown, missing ▸ inserted, intact, ⟨after, same, kept.perm ?_⟩, power⟩
    have contents : (values (ideal.insert key e)).Perm (e :: values (ideal.erase key)) := values_insert key e
    rw [SortedMap.erase_of_find?_none missing] at contents
    exact contents.symm
  · rw [named] at oldKeyed
    have found := refines.find?_eq (contents.mem_iff.mpr (List.mem_cons_self ..)) oldKeyed
    have before := values_of_find? found
    have fewer : (values ideal).length < 2 ^ 31 := by
      rw [before.length_eq, List.length_cons]
      omega
    obtain ⟨grown, inserted, same, power⟩ := represents.insert holds refines.power allocated matching fewer computed
    have others := (contents.symm.trans before).cons_inv
    refine ⟨grown, found ▸ inserted, intact, ⟨after, same, kept.perm ?_⟩, power⟩
    exact (others.cons e).trans (values_insert key e).symm

theorem Refines.perform (refines : Refines hashOf handles map ideal) {call : TableCall}
    (hashed : ∀ e, call = .insert e → Hashed hashOf handles e) (room : (answer handles ideal call).1.size < 2 ^ 31) :
    ∃ after, map.perform hashOf handles call = some (after, (answer handles ideal call).2) ∧
      Refines hashOf handles after (answer handles ideal call).1 := by
  cases call with
  | insert e =>
    obtain ⟨handle, allocated, matching⟩ := hashed e rfl
    have keyed : keyOf handles e = some handle.key := by simp [keyOf, allocated]
    simp only [answer, keyed] at room ⊢
    exact refines.insert keyed (hashed e rfl) room
  | lookup key =>
    refine ⟨map, ?_, refines⟩
    rw [ThreadedMap.perform, refines.lookup]
    rfl
  | remove key => exact refines.remove key

theorem Refines.run (refines : Refines hashOf handles map ideal) {calls : List (Handles V D × TableCall)}
    (proper : Proper hashOf ideal calls) :
    ∃ after, map.run hashOf calls = some (after, (answers ideal calls).2) ∧
      ∃ memory : Handles V D, Refines hashOf memory after (answers ideal calls).1 := by
  induction calls generalizing handles map ideal with
  | nil => exact ⟨map, rfl, handles, refines⟩
  | cons first later ih =>
    obtain ⟨memory, call⟩ := first
    obtain ⟨intact, hashed, room, rest⟩ := proper
    obtain ⟨next, performed, refined⟩ := (refines.move intact).perform hashed room
    obtain ⟨after, computed, finished⟩ := ih refined rest
    refine ⟨after, ?_, finished⟩
    simp only [ThreadedMap.run, performed, Option.bind_eq_bind, Option.bind_some, computed]
    rfl

theorem new_refines (handles : Handles V D) (nextHash : Nat → Option Nat) :
    ∃ start, ThreadedMap.new nextHash = some start ∧ Refines hashOf handles start .empty := by
  refine ⟨⟨4, 0, ⟨List.replicate 4 none, nextHash⟩⟩, rfl, ⟨?_, ?_, 2, rfl⟩⟩
  · intro key e found
    cases found
  · exact ⟨HashMap.new, ⟨rfl, rfl, Chains.stored_empty nextHash 4⟩, HashMap.holds_new handles⟩

theorem hash_map_refines_map (hashOf : Key → Nat) (nextHash : Nat → Option Nat)
    (calls : List (Handles V D × TableCall)) (proper : Proper hashOf .empty calls) :
    ∃ start map chains, ThreadedMap.new nextHash = some start ∧
      start.run hashOf calls = some (map, (answers .empty calls).2) ∧
      map.elems = (answers .empty calls).1.size ∧ (∃ power, map.len = 2 ^ power) ∧
      chains.length = map.len ∧ map.memory.Stored chains ∧ chains.flatten.Perm (values (answers .empty calls).1) ∧
      ∀ (slot : Nat) (chain : List Nat), chains[slot]? = some chain → ∀ e ∈ chain,
        ∃ key, (answers .empty calls).1.find? key = some e ∧ hashOf key &&& (map.len - 1) = slot := by
  obtain ⟨start, created, refines⟩ := @new_refines V D hashOf (fun _ => none) nextHash
  obtain ⟨map, computed, handles, refined⟩ := refines.run proper
  obtain ⟨table, represents, holds⟩ := refined.table
  refine ⟨start, map, table.list, created, computed, ?_, refined.power, holds.sized.trans represents.len.symm,
    represents.stored, holds.chained.contents, ?_⟩
  · rw [represents.elems, holds.counted]
    exact List.length_map ..
  · intro slot chain listed e member
    have stored := holds.chained.contents.mem_iff.mp (List.mem_flatten_of_mem (List.mem_of_getElem? listed) member)
    obtain ⟨key, found⟩ := mem_values.mp stored
    obtain ⟨keyed, hashed⟩ := refined.intact key e found
    refine ⟨key, found, ?_⟩
    rw [represents.len, ← hashed.slotOf keyed table.len]
    exact holds.chained.placed slot chain listed e member

/-- Two handles whose keys have the same hash. -/
def collidingHandles : Handles Unit Unit := fun e =>
  if e = 1 then some ⟨(), (), 1, [1], 5, true, 1⟩ else if e = 2 then some ⟨(), (), 1, [2], 5, true, 1⟩ else none

def collidingCalls : List (Handles Unit Unit × TableCall) :=
  [(collidingHandles, .insert 1), (collidingHandles, .insert 2), (collidingHandles, .remove [1])]

theorem hash_map_refines_map_colliding :
    ∃ start map, ThreadedMap.new (fun _ => none) = some start ∧
      start.run (fun _ => 5) collidingCalls = some (map, [none, none, some 1]) ∧ map.elems = 1 := by
  have intact : ∀ ideal : SortedMap Key Nat, (∀ binding ∈ ideal.bindings, binding ∈ [([1], 1), ([2], 2)]) →
      Intact (fun _ => 5) collidingHandles ideal := by
    intro ideal among key e found
    have listed := among _ (SortedMap.find?_eq_some_iff.mp found)
    simp only [List.mem_cons, List.not_mem_nil, or_false, Prod.mk.injEq] at listed
    rcases listed with ⟨rfl, rfl⟩ | ⟨rfl, rfl⟩
    · exact ⟨rfl, _, rfl, rfl⟩
    · exact ⟨rfl, _, rfl, rfl⟩
  have proper : Proper (fun _ => 5) .empty collidingCalls := by
    refine ⟨intact _ (by decide), ?_, by decide, intact _ (by decide), ?_, by decide, intact _ (by decide), ?_,
      by decide, trivial⟩
    · rintro e same
      cases same
      exact ⟨_, rfl, rfl⟩
    · rintro e same
      cases same
      exact ⟨_, rfl, rfl⟩
    · rintro e same
      cases same
  obtain ⟨start, map, chains, created, computed, counted, rest⟩ :=
    hash_map_refines_map (fun _ => 5) (fun _ => none) collidingCalls proper
  exact ⟨start, map, created, computed, counted⟩

end ThreadedMap

end Cache

end Enigma
