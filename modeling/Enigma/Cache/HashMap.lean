import Enigma.Foundation.ChainedTable
import Enigma.Storage.Types

/-! The hash table of a cache. Its chains run through the handles, which hold the keys
and the hashes; a handle that has been freed can no longer be read. -/

namespace Enigma

namespace Cache

variable {V D : Type}

/-- A cached value and what the cache keeps with it, apart from its links. -/
structure LRUHandle (V D : Type) where
  value : V
  deleter : D
  charge : UInt64
  key : Key
  hash : Nat
  inCache : Bool
  refs : Nat
  deriving DecidableEq

/-- The allocated handles by their addresses. -/
abbrev Handles (V D : Type) := Nat → Option (LRUHandle V D)

structure HashMap where
  len : Nat
  elems : Nat
  list : List (List Nat)
  deriving DecidableEq

/-- The place in a chain that a key belongs to: what was passed, and what lies ahead. -/
def findPointer (handles : Handles V D) (key : Key) (hash : Nat) : List Nat → Option (List Nat × List Nat)
  | [] => some ([], [])
  | e :: rest => do
    let handle ← handles e
    if handle.hash ≠ hash ∨ key ≠ handle.key then
      let (passed, ahead) ← findPointer handles key hash rest
      return (e :: passed, ahead)
    else
      return ([], e :: rest)

namespace HashMap

/-- The doubling wraps, and from then on it would never end. -/
def newLength (elems : Nat) : Nat → Nat → Option Nat
  | 0, _ => none
  | rounds + 1, length =>
    if length < elems then newLength elems rounds (length * 2 % 2 ^ 32) else some length

def move (handles : Handles V D) (length : Nat) (moved : List (List Nat) × Nat) (h : Nat) :
    Option (List (List Nat) × Nat) := do
  let handle ← handles h
  return (moved.1.modify (handle.hash &&& (length - 1)) (h :: ·), (moved.2 + 1) % 2 ^ 32)

def resize (handles : Handles V D) (table : HashMap) : Option HashMap := do
  let length ← newLength table.elems 32 4
  let (list, count) ← table.list.flatten.foldlM (move handles length) (List.replicate length [], 0)
  guard (table.elems = count)
  return { table with list, len := length }

def new : HashMap := (resize (fun _ => none : Handles Unit Unit) ⟨0, 0, []⟩).getD ⟨0, 0, []⟩

def lookup (handles : Handles V D) (table : HashMap) (key : Key) (hash : Nat) : Option (Option Nat) := do
  let chain ← table.list[hash &&& (table.len - 1)]?
  let (_, ahead) ← findPointer handles key hash chain
  return ahead.head?

/-- What was stored for the key is given back. -/
def insert (handles : Handles V D) (table : HashMap) (e : Nat) : Option (HashMap × Option Nat) := do
  let handle ← handles e
  let index := handle.hash &&& (table.len - 1)
  let chain ← table.list[index]?
  let (passed, ahead) ← findPointer handles handle.key handle.hash chain
  let old := ahead.head?
  let table := { table with list := table.list.set index (passed ++ e :: ahead.tail) }
  if old.isSome then
    return (table, old)
  else
    let table := { table with elems := (table.elems + 1) % 2 ^ 32 }
    if table.elems > table.len then
      return (← table.resize handles, old)
    else
      return (table, old)

def remove (handles : Handles V D) (table : HashMap) (key : Key) (hash : Nat) : Option (HashMap × Option Nat) := do
  let index := hash &&& (table.len - 1)
  let chain ← table.list[index]?
  let (passed, ahead) ← findPointer handles key hash chain
  let result := ahead.head?
  if result.isSome then
    return ({ table with list := table.list.set index (passed ++ ahead.tail),
                         elems := (table.elems + (2 ^ 32 - 1)) % 2 ^ 32 }, result)
  else
    return (table, result)

end HashMap

def keyOf (handles : Handles V D) (e : Nat) : Option Key := (handles e).map LRUHandle.key

/-- An allocated handle whose hash is the hash of its key. -/
def Hashed (hashOf : Key → Nat) (handles : Handles V D) (e : Nat) : Prop :=
  ∃ handle, handles e = some handle ∧ handle.hash = hashOf handle.key

def slotOf (handles : Handles V D) (length e : Nat) : Nat :=
  ((handles e).elim 0 LRUHandle.hash) &&& (length - 1)

def OnePerKey (handles : Handles V D) (stored : List Nat) : Prop :=
  stored.Pairwise fun left right => keyOf handles left ≠ keyOf handles right

theorem Hashed.slotOf {hashOf : Key → Nat} {handles : Handles V D} {e : Nat} (hashed : Hashed hashOf handles e)
    {key : Key} (keyed : keyOf handles e = some key) (length : Nat) :
    slotOf handles length e = hashOf key &&& (length - 1) := by
  obtain ⟨handle, present, same⟩ := hashed
  have named : handle.key = key := by simpa [keyOf, present] using keyed
  simp [Cache.slotOf, present, same, named]

theorem mask_lt (hash : Nat) {length : Nat} (positive : 0 < length) : hash &&& (length - 1) < length := by
  have bounded : hash &&& (length - 1) ≤ length - 1 := Nat.and_le_right
  omega

theorem findPointer_spec {hashOf : Key → Nat} {handles : Handles V D} {chain : List Nat} (key : Key)
    (hashed : ∀ e ∈ chain, Hashed hashOf handles e) :
    ∃ passed ahead, findPointer handles key (hashOf key) chain = some (passed, ahead) ∧ chain = passed ++ ahead ∧
      (∀ e ∈ passed, keyOf handles e ≠ some key) ∧ ∀ e ∈ ahead.head?, keyOf handles e = some key := by
  induction chain with
  | nil => exact ⟨[], [], rfl, rfl, by simp, by simp⟩
  | cons e rest ih =>
    obtain ⟨handle, present, same⟩ := hashed e (List.mem_cons_self ..)
    by_cases named : handle.key = key
    · refine ⟨[], e :: rest, ?_, rfl, by simp, ?_⟩
      · simp [findPointer, present, same, named]
      · simp [keyOf, present, named]
    · obtain ⟨passed, ahead, found, split, different, stops⟩ :=
        ih fun e member => hashed e (List.mem_cons_of_mem _ member)
      refine ⟨e :: passed, ahead, ?_, by rw [split]; rfl, ?_, stops⟩
      · simp [findPointer, present, Ne.symm named, found]
      · intro other member
        rcases List.mem_cons.mp member with rfl | later
        · simpa [keyOf, present] using named
        · exact different other later

namespace HashMap

/-- The table holds these handles, one for each key. -/
structure Holds (hashOf : Key → Nat) (handles : Handles V D) (table : HashMap) (stored : List Nat) : Prop where
  positive : 0 < table.len
  sized : table.list.length = table.len
  chained : Chained (slotOf handles table.len) table.list stored
  hashed : ∀ e ∈ stored, Hashed hashOf handles e
  unique : OnePerKey handles stored
  counted : table.elems = stored.length
  roomy : stored.length ≤ table.len
  bounded : stored.length ≤ 2 ^ 31

variable {hashOf : Key → Nat} {handles : Handles V D} {table : HashMap} {stored : List Nat}

theorem Holds.perm {others : List Nat} (holds : Holds hashOf handles table stored) (same : stored.Perm others) :
    Holds hashOf handles table others where
  positive := holds.positive
  sized := holds.sized
  chained := holds.chained.perm same
  hashed := fun e member => holds.hashed e (same.mem_iff.mpr member)
  unique := holds.unique.perm same fun different => Ne.symm different
  counted := holds.counted.trans same.length_eq
  roomy := same.length_eq ▸ holds.roomy
  bounded := same.length_eq ▸ holds.bounded

/-- Handles with the same keys and hashes. -/
def SameKeys (before after : Handles V D) (stored : List Nat) : Prop :=
  ∀ e ∈ stored, ((after e).map fun handle => (handle.key, handle.hash)) =
    (before e).map fun handle => (handle.key, handle.hash)

theorem SameKeys.keyOf {before after : Handles V D} {stored : List Nat} (same : SameKeys before after stored) {e : Nat}
    (member : e ∈ stored) : keyOf after e = keyOf before e := by
  have := congrArg (Option.map Prod.fst) (same e member)
  simpa [Cache.keyOf, Function.comp_def] using this

theorem SameKeys.hashes {before after : Handles V D} {stored : List Nat} (same : SameKeys before after stored) {e : Nat}
    (member : e ∈ stored) : (after e).map LRUHandle.hash = (before e).map LRUHandle.hash := by
  have := congrArg (Option.map Prod.snd) (same e member)
  simpa [Function.comp_def] using this

theorem Holds.congr {after : Handles V D} (holds : Holds hashOf handles table stored)
    (same : SameKeys handles after stored) : Holds hashOf after table stored where
  positive := holds.positive
  sized := holds.sized
  chained := holds.chained.congr fun e member => by
    have hashes := same.hashes member
    cases present : after e <;> cases earlier : handles e <;> simp_all [slotOf]
  hashed := fun e member => by
    obtain ⟨handle, present, matching⟩ := holds.hashed e member
    have keys := same e member
    cases later : after e with
    | none => simp [present, later] at keys
    | some other =>
      obtain ⟨sameKey, sameHash⟩ : other.key = handle.key ∧ other.hash = handle.hash := by
        simpa [present, later] using keys
      exact ⟨other, later, by rw [sameHash, matching, sameKey]⟩
  unique := by
    refine holds.unique.imp_of_mem ?_
    intro left right leftMember rightMember different
    rwa [same.keyOf leftMember, same.keyOf rightMember]
  counted := holds.counted
  roomy := holds.roomy
  bounded := holds.bounded

/-- Where a key is looked for, with all that the walk along its chain finds out. -/
theorem Holds.locate (holds : Holds hashOf handles table stored) (key : Key) :
    ∃ chain passed ahead rest, table.list[hashOf key &&& (table.len - 1)]? = some chain ∧
      findPointer handles key (hashOf key) chain = some (passed, ahead) ∧
      stored.Perm (passed ++ ahead ++ rest) ∧ (∀ e ∈ passed ++ rest, keyOf handles e ≠ some key) ∧
      (∀ e ∈ ahead.head?, keyOf handles e = some key) ∧
      (∀ e ∈ passed ++ ahead, slotOf handles table.len e = hashOf key &&& (table.len - 1)) ∧
      ∀ other, (∀ e ∈ other, slotOf handles table.len e = hashOf key &&& (table.len - 1)) →
        Chained (slotOf handles table.len) (table.list.set (hashOf key &&& (table.len - 1)) other) (other ++ rest) := by
  have inside : hashOf key &&& (table.len - 1) < table.list.length := by
    rw [holds.sized]
    exact mask_lt _ holds.positive
  have found := List.getElem?_eq_getElem inside
  obtain ⟨rest, contents, elsewhere, exchange⟩ := holds.chained.bucket found
  have hashed : ∀ e ∈ stored, Hashed hashOf handles e := holds.hashed
  obtain ⟨passed, ahead, walked, split, different, stops⟩ := findPointer_spec key fun e member =>
    hashed e (contents.mem_iff.mpr (List.mem_append_left rest member))
  refine ⟨_, passed, ahead, rest, found, walked, split ▸ contents, ?_, stops, ?_, exchange⟩
  · intro e member
    rcases List.mem_append.mp member with early | other
    · exact different e early
    · intro keyed
      have stored := hashed e (contents.mem_iff.mpr (List.mem_append_right _ other))
      exact elsewhere e other (stored.slotOf keyed table.len)
  · exact fun e member => holds.chained.placed _ _ found e (split ▸ member)

theorem Holds.lookup (holds : Holds hashOf handles table stored) (key : Key) :
    ((∀ e ∈ stored, keyOf handles e ≠ some key) ∧ table.lookup handles key (hashOf key) = some none) ∨
      ∃ e ∈ stored, keyOf handles e = some key ∧ table.lookup handles key (hashOf key) = some (some e) := by
  obtain ⟨chain, passed, ahead, rest, found, walked, contents, different, stops, -, -⟩ := holds.locate key
  have computed : table.lookup handles key (hashOf key) = some ahead.head? := by
    simp [HashMap.lookup, found, walked]
  cases ahead with
  | nil =>
    refine .inl ⟨fun e member => different e ?_, computed⟩
    simpa using contents.mem_iff.mp member
  | cons e later =>
    exact .inr ⟨e, contents.mem_iff.mpr (by simp), stops e rfl, computed⟩

/-- The same table with another list of chains and another count. -/
theorem Holds.relist {others : List Nat} {list : List (List Nat)} {count : Nat}
    (holds : Holds hashOf handles table stored) (sized : list.length = table.len)
    (chained : Chained (slotOf handles table.len) list others) (hashed : ∀ e ∈ others, Hashed hashOf handles e)
    (unique : OnePerKey handles others) (counted : count = others.length) (roomy : others.length ≤ table.len)
    (bounded : others.length ≤ 2 ^ 31) :
    Holds hashOf handles { table with list, elems := count } others :=
  ⟨holds.positive, sized, chained, hashed, unique, counted, roomy, bounded⟩

theorem Holds.remove (holds : Holds hashOf handles table stored) (key : Key) :
    ((∀ e ∈ stored, keyOf handles e ≠ some key) ∧ table.remove handles key (hashOf key) = some (table, none)) ∨
      ∃ e rest after, stored.Perm (e :: rest) ∧ keyOf handles e = some key ∧
        table.remove handles key (hashOf key) = some (after, some e) ∧ Holds hashOf handles after rest := by
  obtain ⟨chain, passed, ahead, rest, found, walked, contents, different, stops, placed, exchange⟩ := holds.locate key
  cases ahead with
  | nil =>
    refine .inl ⟨fun e member => different e ?_, by simp [HashMap.remove, found, walked]⟩
    simpa using contents.mem_iff.mp member
  | cons e later =>
    have split : stored.Perm (e :: (passed ++ later ++ rest)) := by
      refine contents.trans ?_
      rw [List.append_assoc, List.append_assoc, List.cons_append]
      exact List.perm_middle
    have held := holds.perm split
    have counted := held.counted
    have bounded := held.bounded
    rw [List.length_cons] at counted bounded
    have fewer : (table.elems + (2 ^ 32 - 1)) % 2 ^ 32 = (passed ++ later ++ rest).length := by
      rw [counted]
      omega
    have remaining := exchange (passed ++ later) fun other member => placed other (by grind)
    have shrunk := held.relist (by simpa using holds.sized) remaining
      (fun other member => held.hashed other (List.mem_cons_of_mem _ member)) (List.pairwise_cons.mp held.unique).2
      fewer ((Nat.le_succ _).trans held.roomy) ((Nat.le_succ _).trans held.bounded)
    refine .inr ⟨e, passed ++ later ++ rest, _, split, stops e rfl, ?_, shrunk⟩
    simp only [HashMap.remove, found, walked, Option.bind_eq_bind, Option.bind_some, List.head?_cons,
      Option.isSome_some, if_true, List.tail_cons]
    rfl

theorem newLength_spec {elems doublings rounds length : Nat} (bounded : elems ≤ 2 ^ 31)
    (reaches : length * 2 ^ doublings = 2 ^ 31) (enough : doublings < rounds) (positive : 0 < length) :
    ∃ grown, newLength elems rounds length = some grown ∧ 0 < grown ∧ elems ≤ grown := by
  induction doublings generalizing rounds length with
  | zero =>
    obtain ⟨rounds, rfl⟩ := Nat.exists_eq_add_one_of_ne_zero (Nat.ne_of_gt enough)
    have large : ¬length < elems := by omega
    exact ⟨length, by simp [newLength, large], positive, by omega⟩
  | succ doublings ih =>
    obtain ⟨rounds, rfl⟩ := Nat.exists_eq_add_one_of_ne_zero (Nat.ne_of_gt (Nat.lt_of_le_of_lt (Nat.zero_le _) enough))
    by_cases small : length < elems
    · have doubled : length * 2 % 2 ^ 32 = length * 2 := Nat.mod_eq_of_lt (by omega)
      have onward : length * 2 * 2 ^ doublings = 2 ^ 31 := by
        rw [← reaches, Nat.pow_succ, Nat.mul_assoc, Nat.mul_comm 2]
      have fewer : doublings < rounds := Nat.lt_of_succ_lt_succ enough
      obtain ⟨grown, computed, grownPositive, large⟩ := ih onward fewer (by omega)
      exact ⟨grown, by simp only [newLength, small, if_true, doubled, computed], grownPositive, large⟩
    · exact ⟨length, by simp [newLength, small], positive, by omega⟩

theorem foldlM_move {length count : Nat} {list : List (List Nat)} {done : List Nat} (positive : 0 < length)
    (pending : List Nat) (present : ∀ e ∈ pending, ∃ handle, handles e = some handle)
    (sized : list.length = length) (chained : Chained (slotOf handles length) list done) (counted : count < 2 ^ 32) :
    ∃ moved, pending.foldlM (move handles length) (list, count) = some (moved, (count + pending.length) % 2 ^ 32) ∧
      moved.length = length ∧ Chained (slotOf handles length) moved (pending ++ done) := by
  induction pending generalizing list done count with
  | nil => exact ⟨list, by simpa using (Nat.mod_eq_of_lt counted).symm, sized, chained⟩
  | cons e rest ih =>
    obtain ⟨handle, allocated⟩ := present e (List.mem_cons_self ..)
    have slot : slotOf handles length e = handle.hash &&& (length - 1) := by simp [slotOf, allocated]
    have inside : slotOf handles length e < list.length := by
      rw [slot, sized]
      exact mask_lt _ positive
    have pushed := chained.push inside
    obtain ⟨moved, computed, movedSized, movedChained⟩ :=
      ih (fun other member => present other (List.mem_cons_of_mem _ member)) (by simpa using sized) pushed
        (Nat.mod_lt (count + 1) (Nat.two_pow_pos 32))
    refine ⟨moved, ?_, movedSized, movedChained.perm List.perm_middle⟩
    have total : ((count + 1) % 2 ^ 32 + rest.length) % 2 ^ 32 = (count + (e :: rest).length) % 2 ^ 32 := by
      rw [List.length_cons]
      omega
    rw [total, slot] at computed
    simpa only [List.foldlM_cons, move, allocated, Option.bind_eq_bind, Option.bind_some, Option.pure_def]
      using computed

/-- Growing keeps what is stored. Up to here the count may have outgrown the length. -/
theorem resize_spec (table : HashMap) (contents : table.list.flatten.Perm stored)
    (hashed : ∀ e ∈ stored, Hashed hashOf handles e)
    (unique : OnePerKey handles stored) (counted : table.elems = stored.length) (bounded : stored.length ≤ 2 ^ 31) :
    ∃ after, table.resize handles = some after ∧ Holds hashOf handles after stored := by
  have small : table.elems ≤ 2 ^ 31 := counted ▸ bounded
  have reaches : 4 * 2 ^ 29 = 2 ^ 31 := by decide
  obtain ⟨length, grown, positive, large⟩ := newLength_spec small reaches (by decide : 29 < 32) (by decide)
  have present : ∀ e ∈ table.list.flatten, ∃ handle, handles e = some handle := fun e member =>
    (hashed e (contents.mem_iff.mp member)).imp fun _ => And.left
  obtain ⟨moved, computed, sized, chained⟩ :=
    foldlM_move positive table.list.flatten present (List.length_replicate ..) (Chained.empty length)
      (Nat.two_pow_pos 32)
  have count : (0 + table.list.flatten.length) % 2 ^ 32 = table.elems := by
    rw [contents.length_eq, counted]
    omega
  rw [count] at computed
  refine ⟨{ table with list := moved, len := length }, ?_, ?_⟩
  · simp only [resize, grown, computed, Option.bind_eq_bind, Option.bind_some, guard, if_true, Option.pure_def]
  · rw [List.append_nil] at chained
    exact ⟨positive, sized, chained.perm contents, hashed, unique, counted, counted ▸ large, bounded⟩

theorem holds_new (handles : Handles V D) : Holds hashOf handles HashMap.new [] :=
  ⟨by decide, by decide, Chained.empty 4, by simp, .nil, by decide, by simp, by simp⟩

theorem Holds.insert (holds : Holds hashOf handles table stored) {e : Nat} {handle : LRUHandle V D}
    (allocated : handles e = some handle) (matching : handle.hash = hashOf handle.key) :
    ((∀ other ∈ stored, keyOf handles other ≠ some handle.key) ∧ (stored.length < 2 ^ 31 →
        ∃ after, table.insert handles e = some (after, none) ∧ Holds hashOf handles after (e :: stored))) ∨
      ∃ old rest after, stored.Perm (old :: rest) ∧ keyOf handles old = some handle.key ∧
        table.insert handles e = some (after, some old) ∧ Holds hashOf handles after (e :: rest) := by
  obtain ⟨chain, passed, ahead, rest, found, walked, contents, different, stops, placed, exchange⟩ :=
    holds.locate handle.key
  have keyed : keyOf handles e = some handle.key := by simp [keyOf, allocated]
  have hashed : Hashed hashOf handles e := ⟨handle, allocated, matching⟩
  have slot : ∀ other ∈ passed ++ e :: ahead.tail,
      slotOf handles table.len other = hashOf handle.key &&& (table.len - 1) := by
    intro other member
    have cases : other = e ∨ other ∈ passed ++ ahead := by
      have := List.mem_of_mem_tail (l := ahead) (a := other)
      grind
    rcases cases with rfl | stored
    · exact hashed.slotOf keyed table.len
    · exact placed other stored
  have exchanged := exchange _ slot
  cases ahead with
  | nil =>
    have absent : ∀ other ∈ stored, keyOf handles other ≠ some handle.key := fun other member =>
      different other (by simpa using contents.mem_iff.mp member)
    refine .inl ⟨absent, fun room => ?_⟩
    have contents : (passed ++ e :: [] ++ rest).Perm (e :: stored) := by
      refine List.Perm.trans ?_ (contents.symm.cons e)
      simp [List.perm_middle]
    rw [List.tail_nil] at exchanged
    have chained := exchanged.perm contents
    have hashed := List.forall_mem_cons.mpr ⟨hashed, holds.hashed⟩
    have unique : OnePerKey handles (e :: stored) :=
      List.pairwise_cons.mpr ⟨fun other member => keyed ▸ (absent other member).symm, holds.unique⟩
    have counted : (table.elems + 1) % 2 ^ 32 = (e :: stored).length := by
      rw [holds.counted, List.length_cons]
      omega
    have computed : table.insert handles e =
        if (table.elems + 1) % 2 ^ 32 > table.len then
          (resize handles ⟨table.len, (table.elems + 1) % 2 ^ 32,
            table.list.set (hashOf handle.key &&& (table.len - 1)) (passed ++ [e])⟩).map (·, none)
        else some (⟨table.len, (table.elems + 1) % 2 ^ 32,
          table.list.set (hashOf handle.key &&& (table.len - 1)) (passed ++ [e])⟩, none) := by
      simp only [HashMap.insert, allocated, found, walked, Option.bind_eq_bind, Option.bind_some, List.head?_nil,
        Option.isSome_none, if_false, List.tail_nil, Bool.false_eq_true, matching]
      split
      · exact Option.map_eq_bind.symm
      · rfl
    rw [computed]
    split
    · obtain ⟨after, resized, kept⟩ :=
        resize_spec ⟨table.len, (table.elems + 1) % 2 ^ 32, _⟩ chained.contents hashed unique counted room
      exact ⟨after, by rw [resized]; rfl, kept⟩
    · rename_i roomy
      exact ⟨_, rfl, holds.relist (by simpa using holds.sized) chained hashed unique counted
        (counted ▸ Nat.le_of_not_lt roomy) room⟩
  | cons old later =>
    have middle : ∀ here, (passed ++ here :: later ++ rest).Perm (here :: (passed ++ later ++ rest)) := by
      intro here
      rw [List.append_assoc, List.append_assoc, List.cons_append]
      exact List.perm_middle
    have split := contents.trans (middle old)
    have held := holds.perm split
    have oldKeyed := stops old rfl
    have hashed := List.forall_mem_cons.mpr ⟨hashed, (List.forall_mem_cons.mp held.hashed).2⟩
    have unique : OnePerKey handles (e :: (passed ++ later ++ rest)) := by
      obtain ⟨apart, others⟩ := List.pairwise_cons.mp held.unique
      refine List.pairwise_cons.mpr ⟨fun other member => ?_, others⟩
      rw [keyed, ← oldKeyed]
      exact apart other member
    refine .inr ⟨old, passed ++ later ++ rest, _, split, oldKeyed, ?_,
      held.relist ((List.length_set ..).trans holds.sized) (exchanged.perm (middle e)) hashed unique held.counted
        held.roomy held.bounded⟩
    simp only [HashMap.insert, allocated, found, walked, Option.bind_eq_bind, Option.bind_some, List.head?_cons,
      Option.isSome_some, if_true, List.tail_cons, matching]
    rfl

end HashMap

end Cache

end Enigma
