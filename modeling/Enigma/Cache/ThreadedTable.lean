import Enigma.Cache.HashMap
import Enigma.Foundation.ThreadedChains

/-! The hash table as it lies in memory: an array of the first handles of the chains,
and in every handle the next one. Every operation does to the chains what it does to
lists of handles. -/

namespace Enigma

namespace Cache

variable {V D : Type}

/-- `memory` is `list_` with the `next_hash` of every handle. -/
structure ThreadedMap where
  len : Nat
  elems : Nat
  memory : Chains Nat

namespace ThreadedMap

/-- The walk along a chain. One that has not ended after so many handles is on a chain
longer than it may be. -/
def findPointer (handles : Handles V D) (memory : Chains Nat) (key : Key) (hash : Nat) :
    Nat → Place Nat → Option (Place Nat)
  | 0, _ => none
  | steps + 1, ptr => do
    match ← memory.read ptr with
    | none => return ptr
    | some e =>
      let handle ← handles e
      if handle.hash ≠ hash ∨ key ≠ handle.key then
        findPointer handles memory key hash steps (.after e)
      else
        return ptr

def find (handles : Handles V D) (map : ThreadedMap) (key : Key) (hash : Nat) : Option (Place Nat) :=
  findPointer handles map.memory key hash (map.elems + 1) (.head (hash &&& (map.len - 1)))

def lookup (handles : Handles V D) (map : ThreadedMap) (key : Key) (hash : Nat) : Option (Option Nat) := do
  let ptr ← map.find handles key hash
  map.memory.read ptr

/-- One chain of the old table, handle by handle, to the fronts of the new chains. -/
def moveChain (handles : Handles V D) (length : Nat) :
    Nat → Option Nat → Chains Nat × Nat → Option (Chains Nat × Nat)
  | _, none, moved => some moved
  | 0, some _, _ => none
  | steps + 1, some h, (memory, count) => do
    let next := memory.next h
    let handle ← handles h
    let ptr := Place.head (handle.hash &&& (length - 1))
    let memory := memory.setNext h (← memory.read ptr)
    moveChain handles length steps next (memory.write (some h) ptr, (count + 1) % 2 ^ 32)

def resize (handles : Handles V D) (map : ThreadedMap) : Option ThreadedMap := do
  let length ← HashMap.newLength map.elems 32 4
  let (memory, count) ← map.memory.heads.foldlM (fun moved h => moveChain handles length (map.elems + 1) h moved)
    (⟨List.replicate length none, map.memory.next⟩, 0)
  guard (map.elems = count)
  return { map with memory, len := length }

/-- What the `next_hash` of the handles is before they are inserted does not matter. -/
def new (nextHash : Nat → Option Nat) : Option ThreadedMap :=
  resize (fun _ => none : Handles Unit Unit) ⟨0, 0, ⟨[], nextHash⟩⟩

def insert (handles : Handles V D) (map : ThreadedMap) (e : Nat) : Option (ThreadedMap × Option Nat) := do
  let handle ← handles e
  let ptr ← map.find handles handle.key handle.hash
  let old ← map.memory.read ptr
  let memory := map.memory.setNext e (old.bind map.memory.next)
  let map := { map with memory := memory.write (some e) ptr }
  if old.isSome then
    return (map, old)
  else
    let map := { map with elems := (map.elems + 1) % 2 ^ 32 }
    if map.elems > map.len then
      return (← map.resize handles, old)
    else
      return (map, old)

def remove (handles : Handles V D) (map : ThreadedMap) (key : Key) (hash : Nat) :
    Option (ThreadedMap × Option Nat) := do
  let ptr ← map.find handles key hash
  let result ← map.memory.read ptr
  match result with
  | some e =>
    return ({ map with memory := map.memory.write (map.memory.next e) ptr,
                       elems := (map.elems + (2 ^ 32 - 1)) % 2 ^ 32 }, result)
  | none => return (map, result)

/-- The chains in memory are the chains of a table of lists. -/
structure Represents (map : ThreadedMap) (table : HashMap) : Prop where
  len : map.len = table.len
  elems : map.elems = table.elems
  stored : map.memory.Stored table.list

variable {hashOf : Key → Nat} {handles : Handles V D} {map : ThreadedMap} {table : HashMap} {stored : List Nat}

theorem findPointer_follows {memory : Chains Nat} {key : Key} {hash steps : Nat} {ptr : Place Nat} {start : Option Nat}
    {chain passed ahead : List Nat} (readable : memory.read ptr = some start)
    (leads : Leads memory.next start chain none)
    (walked : Cache.findPointer handles key hash chain = some (passed, ahead)) (enough : chain.length < steps) :
    findPointer handles memory key hash steps ptr = some (ptr.past passed) := by
  obtain ⟨steps, rfl⟩ := Nat.exists_eq_add_one_of_ne_zero (Nat.ne_zero_of_lt enough)
  induction chain generalizing ptr start steps passed with
  | nil =>
    cases walked
    rw [show start = none from leads] at readable
    simp [findPointer, readable, Place.past]
  | cons e later ih =>
    rw [leads.1] at readable
    obtain ⟨handle, allocated, walked⟩ := Option.bind_eq_some_iff.mp walked
    by_cases other : handle.hash ≠ hash ∨ key ≠ handle.key
    · rw [if_pos other] at walked
      obtain ⟨⟨early, rest⟩, found, same⟩ := Option.bind_eq_some_iff.mp walked
      cases same
      rw [List.length_cons] at enough
      obtain ⟨steps, rfl⟩ := Nat.exists_eq_add_one_of_ne_zero (show steps ≠ 0 by omega)
      have next : memory.read (.after e) = some (memory.next e) := rfl
      have further := ih next leads.2 found steps (by omega)
      simp only [findPointer, readable, allocated, Option.bind_eq_bind, Option.bind_some, if_pos other]
      exact further
    · rw [if_neg other] at walked
      cases walked
      simp only [findPointer, readable, allocated, Option.bind_eq_bind, Option.bind_some, if_neg other]
      rfl

theorem findPointer_split {key : Key} {hash : Nat} {chain passed ahead : List Nat}
    (walked : Cache.findPointer handles key hash chain = some (passed, ahead)) : chain = passed ++ ahead := by
  induction chain generalizing passed with
  | nil =>
    cases walked
    rfl
  | cons e later ih =>
    obtain ⟨handle, _, walked⟩ := Option.bind_eq_some_iff.mp walked
    by_cases other : handle.hash ≠ hash ∨ key ≠ handle.key
    · rw [if_pos other] at walked
      obtain ⟨⟨early, rest⟩, found, same⟩ := Option.bind_eq_some_iff.mp walked
      cases same
      rw [ih found, List.cons_append]
    · rw [if_neg other] at walked
      cases walked
      rfl

theorem distinct_of_perm (contents : table.list.flatten.Perm stored) (unique : OnePerKey handles stored) :
    table.list.flatten.Nodup :=
  contents.nodup_iff.mpr (unique.imp fun different same => different (congrArg (keyOf handles) same))

/-- The walk for a key ends where it ends along the list. -/
theorem Represents.find (represents : Represents map table) (counted : table.elems = table.list.flatten.length)
    {key : Key} {hash : Nat} {chain passed ahead : List Nat}
    (found : table.list[hash &&& (table.len - 1)]? = some chain)
    (walked : Cache.findPointer handles key hash chain = some (passed, ahead)) (split : chain = passed ++ ahead) :
    map.find handles key hash = some ((Place.head (hash &&& (table.len - 1))).past passed) ∧
      map.memory.read ((Place.head (hash &&& (table.len - 1))).past passed) = some ahead.head? ∧
      Leads map.memory.next ahead.head? ahead none := by
  obtain ⟨start, begins, leads⟩ := represents.stored.leads _ _ found
  have readable : map.memory.read (.head (hash &&& (table.len - 1))) = some start := begins
  have short : chain.length ≤ table.list.flatten.length :=
    (List.sublist_flatten_of_mem (List.mem_of_getElem? found)).length_le
  have enough : chain.length < map.elems + 1 := by
    rw [represents.elems, counted]
    omega
  have place := findPointer_follows readable leads walked enough
  rw [split] at leads
  obtain ⟨middle, front, back⟩ := (leads_append passed ahead).mp leads
  rw [back.head?] at front back
  refine ⟨?_, Chains.read_past readable front, back⟩
  rw [ThreadedMap.find, represents.len]
  exact place

theorem Represents.lookup (represents : Represents map table) (holds : table.Holds hashOf handles stored) (key : Key) :
    map.lookup handles key (hashOf key) = table.lookup handles key (hashOf key) := by
  obtain ⟨chain, passed, ahead, rest, found, walked, -, -, -, -, -⟩ := holds.locate key
  have split := findPointer_split walked
  obtain ⟨place, reads, -⟩ :=
    represents.find (holds.counted.trans holds.chained.contents.length_eq.symm) found walked split
  simp [ThreadedMap.lookup, HashMap.lookup, place, reads, found, walked]

theorem Represents.remove (represents : Represents map table) (holds : table.Holds hashOf handles stored) {key : Key}
    {after : HashMap} {result : Option Nat} (computed : table.remove handles key (hashOf key) = some (after, result)) :
    ∃ shrunk, map.remove handles key (hashOf key) = some (shrunk, result) ∧ Represents shrunk after ∧
      shrunk.len = map.len := by
  obtain ⟨chain, passed, ahead, rest, found, walked, -, -, -, -, -⟩ := holds.locate key
  have split := findPointer_split walked
  obtain ⟨place, reads, leads⟩ :=
    represents.find (holds.counted.trans holds.chained.contents.length_eq.symm) found walked split
  simp only [HashMap.remove, found, walked, Option.bind_eq_bind, Option.bind_some] at computed
  simp only [ThreadedMap.remove, place, reads, Option.bind_eq_bind, Option.bind_some]
  cases ahead with
  | nil =>
    cases computed
    exact ⟨map, rfl, represents, rfl⟩
  | cons e later =>
    cases computed
    have distinct := distinct_of_perm holds.chained.contents holds.unique
    rw [split] at found
    have separate := List.nodup_append.mp ((List.nodup_flatten.mp distinct).1 _ (List.mem_of_getElem? found))
    have behind : ∀ node ∈ later, node ∉ passed := fun node member early =>
      separate.2.2 node early node (List.mem_cons_of_mem _ member) rfl
    have fewer := congrArg (fun elems => (elems + (2 ^ 32 - 1)) % 2 ^ 32) represents.elems
    have spliced := represents.stored.splice distinct found (fun _ _ _ => rfl) leads.2 behind
    exact ⟨_, rfl, ⟨represents.len, fewer, spliced⟩, rfl⟩

/-- A chain is moved as its list is, and nothing but its links is changed. -/
theorem moveChain_follows {memory : Chains Nat} {buckets : List (List Nat)} {chain done : List Nat} {start : Option Nat}
    {length steps count : Nat} (positive : 0 < length) (sized : buckets.length = length) (kept : memory.Stored buckets)
    (chained : Chained (slotOf handles length) buckets done) (leads : Leads memory.next start chain none)
    (distinct : (chain ++ done).Nodup) (enough : chain.length ≤ steps)
    (present : ∀ e ∈ chain, ∃ handle, handles e = some handle) :
    ∃ moved lists total, moveChain handles length steps start (memory, count) = some (moved, total) ∧
      chain.foldlM (HashMap.move handles length) (buckets, count) = some (lists, total) ∧ moved.Stored lists ∧
      lists.length = length ∧ Chained (slotOf handles length) lists (chain ++ done) ∧
      ∀ node, node ∉ chain → moved.next node = memory.next node := by
  induction chain generalizing memory buckets start done steps count with
  | nil =>
    rw [show start = none from leads]
    exact ⟨memory, buckets, count, by cases steps <;> rfl, rfl, kept, sized, chained, fun _ _ => rfl⟩
  | cons h later ih =>
    obtain ⟨steps, rfl⟩ := Nat.exists_eq_add_one_of_ne_zero (show steps ≠ 0 by rw [List.length_cons] at enough; omega)
    obtain ⟨handle, allocated⟩ := present h (List.mem_cons_self ..)
    obtain ⟨first, rest⟩ := List.nodup_cons.mp distinct
    have slot : slotOf handles length h = handle.hash &&& (length - 1) := by simp [slotOf, allocated]
    have inside : handle.hash &&& (length - 1) < buckets.length := by
      rw [sized]
      exact mask_lt _ positive
    obtain ⟨head, begins⟩ : ∃ head, memory.heads[handle.hash &&& (length - 1)]? = some head :=
      ⟨_, List.getElem?_eq_getElem (kept.sized ▸ inside)⟩
    have outside : h ∉ buckets.flatten := fun member =>
      first (List.mem_append_right _ (chained.contents.mem_iff.mp member))
    have separate : buckets.flatten.Nodup := chained.contents.nodup_iff.mpr (List.nodup_append.mp rest).2.1
    have pushed := kept.push separate outside begins
    have onward : ∀ node, node ≠ h → (memory.setNext h head).next node = memory.next node :=
      fun node different => Function.update_of_ne different _ _
    have following := leads.2.congr fun node member =>
      onward node fun same => first (same ▸ List.mem_append_left _ member)
    have placed := chained.push (slot.symm ▸ inside)
    rw [slot] at placed
    have together : (later ++ h :: done).Nodup := (List.perm_middle.nodup_iff).mpr distinct
    obtain ⟨moved, lists, total, walked, folded, result⟩ := @ih _ _ (h :: done) _ steps ((count + 1) % 2 ^ 32)
      ((List.length_modify ..).trans sized) pushed placed following together (Nat.le_of_succ_le_succ enough)
      fun e member => present e (List.mem_cons_of_mem _ member)
    obtain ⟨stored, length, chains, unchanged⟩ := result
    refine ⟨moved, lists, total, ?_, ?_, stored, length, chains.perm List.perm_middle, ?_⟩
    · rw [leads.1]
      simp only [moveChain, allocated, Chains.read, begins, Option.bind_eq_bind, Option.bind_some]
      exact walked
    · simp only [List.foldlM_cons, HashMap.move, allocated, Option.bind_eq_bind, Option.bind_some, Option.pure_def]
      exact folded
    · intro node other
      obtain ⟨different, elsewhere⟩ := not_or.mp (mt List.mem_cons.mpr other)
      exact (unchanged node elsewhere).trans (onward node different)

/-- One chain after the other, from the array of the old table. -/
theorem foldlM_moveChain {memory : Chains Nat} {buckets pending : List (List Nat)} {done : List Nat}
    {heads : List (Option Nat)} {length steps count : Nat} (positive : 0 < length) (sized : buckets.length = length)
    (kept : memory.Stored buckets) (chained : Chained (slotOf handles length) buckets done)
    (leads : List.Forall₂ (fun start chain => Leads memory.next start chain none) heads pending)
    (distinct : (pending.flatten ++ done).Nodup) (enough : pending.flatten.length ≤ steps)
    (present : ∀ e ∈ pending.flatten, ∃ handle, handles e = some handle) :
    ∃ moved lists total, heads.foldlM (fun moved h => moveChain handles length steps h moved) (memory, count) =
        some (moved, total) ∧
      pending.flatten.foldlM (HashMap.move handles length) (buckets, count) = some (lists, total) ∧
      moved.Stored lists := by
  induction pending generalizing heads memory buckets done count with
  | nil =>
    cases leads
    exact ⟨memory, buckets, count, rfl, rfl, kept⟩
  | cons chain pending ih =>
    obtain ⟨start, heads, first, others, rfl⟩ := List.forall₂_cons_right_iff.mp leads
    rw [List.flatten_cons] at distinct enough present ⊢
    rw [List.append_assoc] at distinct
    rw [List.length_append] at enough
    have apart := List.nodup_append.mp distinct
    obtain ⟨moved, lists, total, walked, folded, stored, length, chains, unchanged⟩ :=
      @moveChain_follows _ _ _ _ _ chain done _ _ steps count positive sized kept chained first
      (distinct.sublist ((List.sublist_append_right ..).append_left chain)) (by omega)
      fun e member => present e (List.mem_append_left _ member)
    have still := forall₂_leads_congr others fun node member => unchanged node fun early =>
      apart.2.2 node early node (List.mem_append_left _ member) rfl
    have remaining : (pending.flatten ++ (chain ++ done)).Nodup :=
      (List.perm_append_comm_assoc ..).nodup_iff.mpr distinct
    obtain ⟨last, grown, sum, rest, further, result⟩ :=
      @ih moved lists (chain ++ done) heads total length stored chains still remaining (by omega)
        fun e member => present e (List.mem_append_right _ member)
    refine ⟨last, grown, sum, ?_, ?_, result⟩
    · rw [List.foldlM_cons, walked]
      exact rest
    · rw [List.foldlM_append, folded]
      exact further

theorem newLength_two_pow {elems rounds exponent grown : Nat} (bounded : elems ≤ 2 ^ 31) (small : exponent ≤ 31)
    (computed : HashMap.newLength elems rounds (2 ^ exponent) = some grown) : ∃ power, grown = 2 ^ power := by
  induction rounds generalizing exponent with
  | zero => cases computed
  | succ rounds ih =>
    rw [HashMap.newLength] at computed
    by_cases short : 2 ^ exponent < elems
    · have further : exponent < 31 := (Nat.pow_lt_pow_iff_right (by decide)).mp (short.trans_le bounded)
      have fits : 2 ^ (exponent + 1) < 2 ^ 32 := Nat.pow_lt_pow_right (by decide) (by omega)
      rw [if_pos short, ← pow_succ, Nat.mod_eq_of_lt fits] at computed
      exact ih further computed
    · rw [if_neg short] at computed
      cases computed
      exact ⟨exponent, rfl⟩

/-- Growing keeps every handle, and comes to an end with the assertion held. -/
theorem Represents.resize (represents : Represents map table) (contents : table.list.flatten.Perm stored)
    (unique : OnePerKey handles stored) (counted : table.elems = stored.length) (bounded : table.elems ≤ 2 ^ 31)
    (present : ∀ e ∈ stored, ∃ handle, handles e = some handle) {after : HashMap}
    (computed : table.resize handles = some after) :
    ∃ grown, map.resize handles = some grown ∧ Represents grown after ∧ ∃ power, grown.len = 2 ^ power := by
  obtain ⟨length, sufficient, computed⟩ := Option.bind_eq_some_iff.mp computed
  obtain ⟨⟨list, count⟩, folded, computed⟩ := Option.bind_eq_some_iff.mp computed
  obtain ⟨held, guarded, computed⟩ := Option.bind_eq_some_iff.mp computed
  cases computed
  obtain ⟨power, rfl⟩ := newLength_two_pow bounded (show 2 ≤ 31 by decide) sufficient
  have distinct := distinct_of_perm contents unique
  obtain ⟨moved, lists, total, walked, lifted, kept⟩ := @foldlM_moveChain _ _ handles _ _ _ [] _ _ (map.elems + 1) 0
    (Nat.two_pow_pos power) List.length_replicate (Chains.stored_empty map.memory.next (2 ^ power)) (Chained.empty _)
    represents.stored.forall₂ (by rwa [List.append_nil])
    (by rw [contents.length_eq, represents.elems, counted]; omega)
    fun e member => present e (contents.mem_iff.mp member)
  cases folded.symm.trans lifted
  refine ⟨⟨2 ^ power, map.elems, moved⟩, ?_, ⟨rfl, represents.elems, kept⟩, power, rfl⟩
  simp only [ThreadedMap.resize, represents.elems, sufficient, Option.bind_eq_bind, Option.bind_some]
  rw [represents.elems] at walked
  rw [walked]
  simp only [Option.bind_some, guarded, Option.pure_def]

/-- A handle takes the place in its chain of what was stored for its key. -/
theorem Represents.place (represents : Represents map table) (holds : table.Holds hashOf handles stored) {e slot : Nat}
    {key : Key} {passed ahead rest : List Nat} (keyed : keyOf handles e = some key)
    (found : table.list[slot]? = some (passed ++ ahead)) (contents : stored.Perm (passed ++ ahead ++ rest))
    (different : ∀ other ∈ passed ++ rest, keyOf handles other ≠ some key)
    (stops : ∀ other ∈ ahead.head?, keyOf handles other = some key)
    (leads : Leads map.memory.next ahead.head? ahead none) :
    ((map.memory.setNext e (ahead.head?.bind map.memory.next)).write (some e) ((Place.head slot).past passed)).Stored
      (table.list.set slot (passed ++ e :: ahead.tail)) := by
  have distinct := distinct_of_perm holds.chained.contents holds.unique
  have separate := List.nodup_append.mp ((List.nodup_flatten.mp distinct).1 _ (List.mem_of_getElem? found))
  have unique : OnePerKey handles ahead := (holds.perm contents).unique.sublist
    ((List.sublist_append_right passed ahead).trans (List.sublist_append_left ..))
  have behind : ∀ other ∈ ahead.tail, other ≠ e := by
    cases ahead with
    | nil => exact fun _ member => absurd member List.not_mem_nil
    | cons old later =>
      rintro other member rfl
      exact (List.pairwise_cons.mp unique).1 other member ((stops old rfl).trans keyed.symm)
  have elsewhere : ∀ other ∈ table.list.flatten, other ∉ ahead → other ≠ e := by
    rintro other member outside rfl
    have among := contents.mem_iff.mp (holds.chained.contents.mem_iff.mp member)
    rw [List.append_assoc, List.mem_append, List.mem_append] at among
    rcases among with early | here | later
    · exact different other (List.mem_append_left _ early) keyed
    · exact outside here
    · exact different other (List.mem_append_right _ later) keyed
  refine represents.stored.splice distinct found ?_ ?_ ?_
  · intro other member outside
    exact Function.update_of_ne (elsewhere other member outside) _ _
  · refine ⟨rfl, ?_⟩
    rw [Function.update_self]
    exact leads.tail.congr fun other member => Function.update_of_ne (behind other member) _ _
  · intro other member early
    rcases List.mem_cons.mp member with rfl | later
    · exact different other (List.mem_append_left _ early) keyed
    · exact separate.2.2 other early other (List.mem_of_mem_tail later) rfl

theorem Represents.insert (represents : Represents map table) (holds : table.Holds hashOf handles stored)
    (power : ∃ power, map.len = 2 ^ power) {e : Nat} {handle : LRUHandle V D} (allocated : handles e = some handle)
    (matching : handle.hash = hashOf handle.key) (room : stored.length < 2 ^ 31) {after : HashMap} {old : Option Nat}
    (computed : table.insert handles e = some (after, old)) :
    ∃ grown, map.insert handles e = some (grown, old) ∧ Represents grown after ∧ ∃ power, grown.len = 2 ^ power := by
  obtain ⟨chain, passed, ahead, rest, found, walked, contents, different, stops, placed, exchange⟩ :=
    holds.locate handle.key
  have keyed : keyOf handles e = some handle.key := by simp [keyOf, allocated]
  have split := findPointer_split walked
  obtain ⟨ptr, reads, leads⟩ :=
    represents.find (holds.counted.trans holds.chained.contents.length_eq.symm) found walked split
  have spliced := represents.place holds keyed (split ▸ found) contents different stops leads
  simp only [HashMap.insert, allocated, matching, found, walked, Option.bind_eq_bind, Option.bind_some] at computed
  simp only [ThreadedMap.insert, allocated, matching, ptr, reads, Option.bind_eq_bind, Option.bind_some]
  cases ahead with
  | cons held later =>
    cases computed
    exact ⟨_, rfl, ⟨represents.len, represents.elems, spliced⟩, power⟩
  | nil =>
    simp only [List.head?_nil, Option.isSome_none, Bool.false_eq_true, if_false, List.tail_nil] at computed spliced ⊢
    rw [represents.elems, represents.len]
    by_cases large : (table.elems + 1) % 2 ^ 32 > table.len
    · rw [if_pos large] at computed ⊢
      obtain ⟨resized, grew, same⟩ := Option.bind_eq_some_iff.mp computed
      cases same
      have hashed : ∀ other ∈ e :: stored, Hashed hashOf handles other := fun other member =>
        (List.mem_cons.mp member).elim (fun same => same ▸ ⟨handle, allocated, matching⟩) (holds.hashed other)
      have slots : ∀ other ∈ passed ++ [e], slotOf handles table.len other = hashOf handle.key &&& (table.len - 1) := by
        intro other member
        rcases List.mem_append.mp member with early | last
        · exact placed other (List.mem_append_left _ early)
        · rw [List.mem_singleton.mp last]
          exact (hashed e (List.mem_cons_self ..)).slotOf keyed table.len
      have held : (passed ++ [e] ++ rest).Perm (e :: stored) := by
        refine List.Perm.trans ?_ (contents.symm.cons e)
        rw [List.append_nil, List.append_assoc]
        exact List.perm_middle
      have absent : ∀ other ∈ stored, keyOf handles e ≠ keyOf handles other := by
        intro other member same
        refine different other ?_ (same ▸ keyed)
        simpa using contents.mem_iff.mp member
      have counted : (table.elems + 1) % 2 ^ 32 = (e :: stored).length := by
        rw [holds.counted, List.length_cons]
        omega
      have widened : Represents ⟨table.len, (table.elems + 1) % 2 ^ 32, _⟩ ⟨table.len, (table.elems + 1) % 2 ^ 32,
          table.list.set (hashOf handle.key &&& (table.len - 1)) (passed ++ [e])⟩ := ⟨rfl, rfl, spliced⟩
      obtain ⟨grown, computed, result⟩ := widened.resize ((exchange _ slots).contents.trans held)
        (List.pairwise_cons.mpr ⟨absent, holds.unique⟩) counted (counted ▸ room)
        (fun other member => (hashed other member).imp fun _ => And.left) grew
      exact ⟨grown, Option.bind_eq_some_iff.mpr ⟨grown, computed, rfl⟩, result⟩
    · rw [if_neg large] at computed ⊢
      cases computed
      exact ⟨_, rfl, ⟨rfl, rfl, spliced⟩, represents.len ▸ power⟩

end ThreadedMap

end Cache

end Enigma
