import Mathlib.Algebra.Order.Ring.Nat
import Mathlib.Data.List.Lex
import Mathlib.Data.List.Sort

/-! Finite maps kept as their bindings in strictly ascending key order, the way
an ordered tree map presents them to a reader. Raw binding lists come first;
`SortedMap` then carries the order as a field. -/

namespace Enigma

universe u v w

namespace Assoc

variable {κ : Type u} {ν : Type v} [LinearOrder κ]

/-- Keys strictly ascend from left to right. -/
def Ascending (bindings : List (κ × ν)) : Prop :=
  bindings.Pairwise (fun left right => left.1 < right.1)

instance (bindings : List (κ × ν)) : Decidable (Ascending bindings) :=
  inferInstanceAs (Decidable (bindings.Pairwise _))

/-- The value of the first binding of a key. -/
def find? : List (κ × ν) → κ → Option ν
  | [], _ => none
  | (name, value) :: rest, key => if name = key then some value else find? rest key

/-- Replace the binding of a key, or place a new one before the first larger key. -/
def insert : List (κ × ν) → κ → ν → List (κ × ν)
  | [], key, value => [(key, value)]
  | (name, old) :: rest, key, value =>
    if key < name then (key, value) :: (name, old) :: rest
    else if key = name then (key, value) :: rest
    else (name, old) :: insert rest key value

def erase (bindings : List (κ × ν)) (key : κ) : List (κ × ν) :=
  bindings.filter (fun binding => binding.1 ≠ key)

/-- The value of the last binding of a key, for lists read as a log of writes. -/
def last? (bindings : List (κ × ν)) (key : κ) : Option ν := find? bindings.reverse key

@[simp] theorem find?_nil (key : κ) : find? ([] : List (κ × ν)) key = none := rfl

theorem find?_append (front back : List (κ × ν)) (key : κ) :
    find? (front ++ back) key = (find? front key).or (find? back key) := by
  induction front with
  | nil => rfl
  | cons binding rest ih =>
    obtain ⟨name, value⟩ := binding
    by_cases same : name = key <;> simp [find?, same, ih]

theorem find?_eq_none_iff {bindings : List (κ × ν)} {key : κ} :
    find? bindings key = none ↔ ∀ binding ∈ bindings, binding.1 ≠ key := by
  induction bindings with
  | nil => simp
  | cons binding rest ih =>
    obtain ⟨name, value⟩ := binding
    by_cases same : name = key <;> simp [find?, same, ih]

theorem mem_of_find? {bindings : List (κ × ν)} {key : κ} {value : ν}
    (found : find? bindings key = some value) : (key, value) ∈ bindings := by
  induction bindings with
  | nil => simp at found
  | cons binding rest ih =>
    obtain ⟨name, held⟩ := binding
    by_cases same : name = key
    · simp only [find?, same, ↓reduceIte, Option.some.injEq] at found
      simp [same, found]
    · simp only [find?, same, ↓reduceIte] at found
      exact List.mem_cons_of_mem _ (ih found)

theorem find?_of_mem {bindings : List (κ × ν)} {key : κ} {value : ν}
    (ascending : Ascending bindings) (member : (key, value) ∈ bindings) :
    find? bindings key = some value := by
  induction bindings with
  | nil => simp at member
  | cons binding rest ih =>
    obtain ⟨name, held⟩ := binding
    obtain ⟨below, tail⟩ := List.pairwise_cons.mp ascending
    rcases List.mem_cons.mp member with here | later
    · cases here
      simp [find?]
    · have different : name ≠ key := ne_of_lt (below _ later)
      simpa [find?, different] using ih tail later

/-- On ascending bindings, lookup and membership say the same. -/
theorem find?_eq_some_iff {bindings : List (κ × ν)} {key : κ} {value : ν}
    (ascending : Ascending bindings) :
    find? bindings key = some value ↔ (key, value) ∈ bindings :=
  ⟨mem_of_find?, find?_of_mem ascending⟩

theorem find?_insert (bindings : List (κ × ν)) (key probe : κ) (value : ν) :
    find? (insert bindings key value) probe =
      if probe = key then some value else find? bindings probe := by
  induction bindings with
  | nil => simp [insert, find?, eq_comm]
  | cons binding rest ih =>
    obtain ⟨name, old⟩ := binding
    by_cases before : key < name
    · simp [insert, before, find?, eq_comm]
    · by_cases same : key = name
      · subst same
        by_cases hit : probe = key
        · simp [insert, find?, hit]
        · simp [insert, find?, hit, Ne.symm hit]
      · simp only [insert, before, same, ↓reduceIte, find?, ih]
        by_cases hit : name = probe
        · subst hit
          simp [Ne.symm same]
        · simp [hit]

theorem mem_insert {bindings : List (κ × ν)} {key : κ} {value : ν} {binding : κ × ν}
    (member : binding ∈ insert bindings key value) : binding = (key, value) ∨ binding ∈ bindings := by
  induction bindings with
  | nil => simpa [insert] using member
  | cons head rest ih =>
    obtain ⟨name, old⟩ := head
    simp only [insert] at member
    split_ifs at member with before same
    · simpa [or_assoc] using member
    · rcases List.mem_cons.mp member with here | later
      · exact .inl here
      · exact .inr (List.mem_cons_of_mem _ later)
    · rcases List.mem_cons.mp member with here | later
      · exact .inr (by simp [here])
      · rcases ih later with new | kept
        · exact .inl new
        · exact .inr (List.mem_cons_of_mem _ kept)

theorem insert_ascending {bindings : List (κ × ν)} (ascending : Ascending bindings) (key : κ) (value : ν) :
    Ascending (insert bindings key value) := by
  induction bindings with
  | nil => simp [insert, Ascending]
  | cons head rest ih =>
    obtain ⟨name, old⟩ := head
    obtain ⟨below, tail⟩ := List.pairwise_cons.mp ascending
    simp only [insert]
    split_ifs with before same
    · refine List.pairwise_cons.mpr ⟨?_, ascending⟩
      intro binding member
      rcases List.mem_cons.mp member with here | later
      · simpa [here] using before
      · exact lt_trans before (below binding later)
    · subst same
      exact List.pairwise_cons.mpr ⟨below, tail⟩
    · refine List.pairwise_cons.mpr ⟨?_, ih tail⟩
      intro binding member
      rcases mem_insert member with new | kept
      · subst new
        exact lt_of_le_of_ne (not_lt.mp before) (Ne.symm same)
      · exact below binding kept

/-- A key above every key of the list goes to the end. -/
theorem insert_above {bindings : List (κ × ν)} {key : κ} (value : ν)
    (above : ∀ binding ∈ bindings, binding.1 < key) : insert bindings key value = bindings ++ [(key, value)] := by
  induction bindings with
  | nil => rfl
  | cons head rest ih =>
    have larger := above head (by simp)
    have tail := ih (fun binding member => above binding (by simp [member]))
    simp [insert, not_lt.mpr larger.le, ne_of_gt larger, tail]

theorem erase_ascending {bindings : List (κ × ν)} (ascending : Ascending bindings) (key : κ) :
    Ascending (erase bindings key) :=
  List.Pairwise.filter _ ascending

theorem find?_erase (bindings : List (κ × ν)) (key probe : κ) :
    find? (erase bindings key) probe = if probe = key then none else find? bindings probe := by
  induction bindings with
  | nil => simp [erase]
  | cons head rest ih =>
    obtain ⟨name, value⟩ := head
    simp only [erase] at ih
    by_cases gone : name = key
    · subst gone
      by_cases hit : probe = name
      · simpa [erase, hit] using ih
      · simpa [erase, hit, find?, Ne.symm hit] using ih
    · by_cases hit : name = probe
      · subst hit
        simp [erase, gone, find?]
      · simpa [erase, gone, find?, hit] using ih

/-- Ascending bindings are determined by what they look up. -/
theorem ext_find? {left right : List (κ × ν)} (leftAscending : Ascending left) (rightAscending : Ascending right)
    (agree : ∀ key, find? left key = find? right key) : left = right := by
  have order : ∀ {bindings : List (κ × ν)}, Ascending bindings →
      bindings.Pairwise (fun a b => a.1 < b.1) := fun ascending => ascending
  have nodup : ∀ {bindings : List (κ × ν)}, Ascending bindings → bindings.Nodup := by
    intro bindings ascending
    exact ascending.imp (fun less same => absurd (congrArg Prod.fst same) (ne_of_lt less))
  have members : ∀ binding : κ × ν, binding ∈ left ↔ binding ∈ right := by
    rintro ⟨key, value⟩
    rw [← find?_eq_some_iff leftAscending, ← find?_eq_some_iff rightAscending, agree key]
  have perm := (List.perm_ext_iff_of_nodup (nodup leftAscending) (nodup rightAscending)).mpr members
  exact perm.eq_of_pairwise (fun a b _ _ less more => absurd (lt_trans less more) (lt_irrefl _))
    (order leftAscending) (order rightAscending)

/-- Summing a weight over the bindings, an insertion adds the new binding's
weight and takes away that of the binding it replaces. -/
theorem sum_insert {bindings : List (κ × ν)} (ascending : Ascending bindings) (key : κ) (value : ν)
    (weight : κ × ν → Nat) :
    ((insert bindings key value).map weight).sum + ((find? bindings key).elim 0 (fun held => weight (key, held))) =
      (bindings.map weight).sum + weight (key, value) := by
  induction bindings with
  | nil => simp [insert]
  | cons head rest ih =>
    obtain ⟨name, old⟩ := head
    obtain ⟨below, tail⟩ := List.pairwise_cons.mp ascending
    by_cases before : key < name
    · have absent : find? ((name, old) :: rest) key = none := by
        apply find?_eq_none_iff.mpr
        intro binding member
        rcases List.mem_cons.mp member with here | later
        · simpa [here] using ne_of_gt before
        · exact ne_of_gt (lt_trans before (below binding later))
      simp only [insert, before, ↓reduceIte, absent, Option.elim_none, List.map_cons, List.sum_cons]
      omega
    · by_cases same : key = name
      · subst same
        simp only [insert, lt_irrefl, ↓reduceIte, find?, Option.elim_some, List.map_cons, List.sum_cons]
        omega
      · have step := ih tail
        simp only [insert, before, same, Ne.symm same, ↓reduceIte, find?, List.map_cons, List.sum_cons] at step ⊢
        omega

@[simp] theorem last?_nil (key : κ) : last? ([] : List (κ × ν)) key = none := rfl

theorem last?_append (front back : List (κ × ν)) (key : κ) :
    last? (front ++ back) key = (last? back key).or (last? front key) := by
  simp [last?, find?_append]

theorem last?_concat (bindings : List (κ × ν)) (key probe : κ) (value : ν) :
    last? (bindings ++ [(key, value)]) probe = if probe = key then some value else last? bindings probe := by
  by_cases same : key = probe
  · subst same
    simp [last?, find?]
  · simp [last?, find?, same, Ne.symm same]

theorem last?_eq_none_iff {bindings : List (κ × ν)} {key : κ} :
    last? bindings key = none ↔ ∀ binding ∈ bindings, binding.1 ≠ key := by
  simp [last?, find?_eq_none_iff]

end Assoc

/-- A finite map whose bindings are listed in strictly ascending key order. -/
structure SortedMap (κ : Type u) (ν : Type v) [LinearOrder κ] where
  bindings : List (κ × ν)
  ascending : Assoc.Ascending bindings

namespace SortedMap

variable {κ : Type u} {ν : Type v} {β : Type w} [LinearOrder κ]

instance [DecidableEq ν] : DecidableEq (SortedMap κ ν) := fun left right =>
  decidable_of_iff (left.bindings = right.bindings)
    ⟨fun same => by cases left; cases right; cases same; rfl, fun same => congrArg bindings same⟩

def empty : SortedMap κ ν := ⟨[], List.Pairwise.nil⟩

def find? (map : SortedMap κ ν) (key : κ) : Option ν := Assoc.find? map.bindings key

def insert (map : SortedMap κ ν) (key : κ) (value : ν) : SortedMap κ ν :=
  ⟨Assoc.insert map.bindings key value, Assoc.insert_ascending map.ascending key value⟩

def erase (map : SortedMap κ ν) (key : κ) : SortedMap κ ν :=
  ⟨Assoc.erase map.bindings key, Assoc.erase_ascending map.ascending key⟩

def size (map : SortedMap κ ν) : Nat := map.bindings.length

def keys (map : SortedMap κ ν) : List κ := map.bindings.map Prod.fst

/-- Apply a log of writes in order. -/
def insertMany (map : SortedMap κ ν) (writes : List (κ × ν)) : SortedMap κ ν :=
  writes.foldl (fun current write => current.insert write.1 write.2) map

/-- The first answer met when the bindings are asked from the largest key down. -/
def newest (map : SortedMap κ ν) (ask : κ → ν → Option β) : Option β :=
  map.bindings.reverse.findSome? (fun binding => ask binding.1 binding.2)

@[simp] theorem find?_empty (key : κ) : (empty : SortedMap κ ν).find? key = none := rfl

@[simp] theorem find?_insert (map : SortedMap κ ν) (key probe : κ) (value : ν) :
    (map.insert key value).find? probe = if probe = key then some value else map.find? probe :=
  Assoc.find?_insert map.bindings key probe value

@[simp] theorem find?_erase (map : SortedMap κ ν) (key probe : κ) :
    (map.erase key).find? probe = if probe = key then none else map.find? probe :=
  Assoc.find?_erase map.bindings key probe

theorem find?_eq_some_iff {map : SortedMap κ ν} {key : κ} {value : ν} :
    map.find? key = some value ↔ (key, value) ∈ map.bindings :=
  Assoc.find?_eq_some_iff map.ascending

theorem find?_eq_none_iff {map : SortedMap κ ν} {key : κ} :
    map.find? key = none ↔ key ∉ map.keys := by
  simp only [find?, Assoc.find?_eq_none_iff, keys, List.mem_map, not_exists, not_and]

theorem mem_keys_iff {map : SortedMap κ ν} {key : κ} :
    key ∈ map.keys ↔ ∃ value, map.find? key = some value := by
  rw [← not_iff_not, ← find?_eq_none_iff, Option.eq_none_iff_forall_ne_some]
  simp

/-- Maps that look up the same are the same map. -/
theorem ext_find? {left right : SortedMap κ ν} (agree : ∀ key, left.find? key = right.find? key) :
    left = right := by
  have same := Assoc.ext_find? left.ascending right.ascending agree
  cases left
  cases right
  cases same
  rfl

theorem insert_bindings_above {map : SortedMap κ ν} {key : κ} (value : ν)
    (above : ∀ name ∈ map.keys, name < key) : (map.insert key value).bindings = map.bindings ++ [(key, value)] :=
  Assoc.insert_above value (fun binding member => above _ (List.mem_map.mpr ⟨binding, member, rfl⟩))

@[simp] theorem mem_keys_insert {map : SortedMap κ ν} {key probe : κ} {value : ν} :
    probe ∈ (map.insert key value).keys ↔ probe = key ∨ probe ∈ map.keys := by
  simp only [mem_keys_iff, find?_insert]
  by_cases same : probe = key <;> simp [same]

@[simp] theorem mem_keys_erase {map : SortedMap κ ν} {key probe : κ} :
    probe ∈ (map.erase key).keys ↔ probe ≠ key ∧ probe ∈ map.keys := by
  simp only [mem_keys_iff, find?_erase]
  by_cases same : probe = key <;> simp [same]

theorem size_eq_zero_iff {map : SortedMap κ ν} : map.size = 0 ↔ ∀ key, map.find? key = none := by
  constructor
  · intro empty key
    have none := List.length_eq_zero_iff.mp empty
    simp [find?, none]
  · intro missing
    apply List.length_eq_zero_iff.mpr
    apply List.eq_nil_iff_forall_not_mem.mpr
    rintro ⟨key, value⟩ member
    have found := find?_eq_some_iff.mpr member
    rw [missing key] at found
    cases found

theorem insertMany_find? (map : SortedMap κ ν) (writes : List (κ × ν)) (key : κ) :
    (map.insertMany writes).find? key = (Assoc.last? writes key).or (map.find? key) := by
  induction writes generalizing map with
  | nil => simp [insertMany]
  | cons write rest ih =>
    obtain ⟨name, value⟩ := write
    have step : (map.insertMany ((name, value) :: rest)) = (map.insert name value).insertMany rest := rfl
    have split : Assoc.last? ((name, value) :: rest) key =
        (Assoc.last? rest key).or (if key = name then some value else none) := by
      rw [show (name, value) :: rest = [(name, value)] ++ rest from rfl, Assoc.last?_append]
      simp [Assoc.last?, Assoc.find?, eq_comm]
    rw [step, ih, find?_insert, split]
    by_cases same : key = name <;> simp [same]

/-- `newest` answers from the largest key that has an answer. -/
theorem newest_eq_some_iff {map : SortedMap κ ν} {ask : κ → ν → Option β} {answer : β} :
    map.newest ask = some answer ↔ ∃ key value, map.find? key = some value ∧ ask key value = some answer ∧
      ∀ later other, key < later → map.find? later = some other → ask later other = none := by
  have split : ∀ {front back : List (κ × ν)} {key : κ} {value : ν},
      map.bindings.reverse = front ++ (key, value) :: back →
      map.find? key = some value ∧ ∀ binding, binding ∈ front ↔ (key < binding.1 ∧ binding ∈ map.bindings) := by
    intro front back key value shape
    have order : map.bindings = back.reverse ++ (key, value) :: front.reverse := by
      have flipped := congrArg List.reverse shape
      simpa using flipped
    have ascending := map.ascending
    rw [Assoc.Ascending, order] at ascending
    obtain ⟨_, tail, across⟩ := List.pairwise_append.mp ascending
    obtain ⟨below, _⟩ := List.pairwise_cons.mp tail
    refine ⟨find?_eq_some_iff.mpr (by simp [order]), ?_⟩
    intro binding
    constructor
    · intro member
      exact ⟨below binding (by simpa using member), by simp [order, member]⟩
    · rintro ⟨larger, member⟩
      rw [order] at member
      rcases List.mem_append.mp member with early | late
      · exact absurd (lt_trans larger (across binding early (key, value) (by simp))) (lt_irrefl _)
      · rcases List.mem_cons.mp late with here | late
        · subst here
          exact absurd larger (lt_irrefl _)
        · simpa using late
  simp only [newest, List.findSome?_eq_some_iff]
  constructor
  · rintro ⟨front, ⟨key, value⟩, back, shape, hit, missed⟩
    obtain ⟨found, early⟩ := split shape
    refine ⟨key, value, found, hit, ?_⟩
    intro later other larger present
    exact missed (later, other) ((early _).mpr ⟨larger, find?_eq_some_iff.mp present⟩)
  · rintro ⟨key, value, found, hit, missed⟩
    have member : (key, value) ∈ map.bindings.reverse := by
      simpa using find?_eq_some_iff.mp found
    obtain ⟨front, back, shape⟩ := List.append_of_mem member
    refine ⟨front, (key, value), back, shape, hit, ?_⟩
    rintro ⟨later, other⟩ present
    obtain ⟨larger, held⟩ := ((split shape).2 _).mp present
    exact missed later other larger (find?_eq_some_iff.mpr held)

theorem newest_eq_none_iff {map : SortedMap κ ν} {ask : κ → ν → Option β} :
    map.newest ask = none ↔ ∀ key value, map.find? key = some value → ask key value = none := by
  simp only [newest, List.findSome?_eq_none_iff, List.mem_reverse, find?_eq_some_iff]
  exact ⟨fun missed key value member => missed (key, value) member,
    fun missed binding member => missed binding.1 binding.2 member⟩

/-- A binding above all others is asked first. -/
theorem newest_insert_above {map : SortedMap κ ν} {key : κ} (value : ν) (ask : κ → ν → Option β)
    (above : ∀ name ∈ map.keys, name < key) :
    (map.insert key value).newest ask = (ask key value).or (map.newest ask) := by
  simp only [newest, insert_bindings_above value above]
  cases hit : ask key value <;> simp [hit]

/-- The same keys with other values. -/
def mapValues (map : SortedMap κ ν) (change : κ → ν → β) : SortedMap κ β :=
  ⟨map.bindings.map fun binding => (binding.1, change binding.1 binding.2),
    by simpa [Assoc.Ascending, List.pairwise_map] using map.ascending⟩

@[simp] theorem find?_mapValues (map : SortedMap κ ν) (change : κ → ν → β) (key : κ) :
    (map.mapValues change).find? key = (map.find? key).map (change key) := by
  obtain ⟨bindings, ascending⟩ := map
  simp only [find?, mapValues]
  clear ascending
  induction bindings with
  | nil => rfl
  | cons binding rest ih =>
    obtain ⟨name, value⟩ := binding
    by_cases same : name = key
    · subst same
      simp [Assoc.find?]
    · simpa [Assoc.find?, same] using ih

@[simp] theorem insert_insert (map : SortedMap κ ν) (key : κ) (first second : ν) :
    (map.insert key first).insert key second = map.insert key second := by
  apply ext_find?
  intro probe
  by_cases same : probe = key <;> simp [same]

theorem perm_of_find? {map : SortedMap κ ν} {key : κ} {value : ν} (found : map.find? key = some value) :
    map.bindings.Perm ((key, value) :: (map.erase key).bindings) := by
  have distinct : ∀ other : SortedMap κ ν, other.bindings.Nodup := fun other =>
    other.ascending.imp fun below same => absurd (congrArg Prod.fst same) below.ne
  have absent : (key, value) ∉ (map.erase key).bindings := by
    rw [← find?_eq_some_iff, find?_erase, if_pos rfl]
    simp
  refine (List.perm_ext_iff_of_nodup (distinct map) (List.nodup_cons.mpr ⟨absent, distinct _⟩)).mpr ?_
  rintro ⟨probe, held⟩
  rw [List.mem_cons, ← find?_eq_some_iff, ← find?_eq_some_iff, find?_erase, Prod.mk.injEq]
  by_cases same : probe = key
  · rw [same, found]
    simp [eq_comm]
  · simp [same]

theorem erase_of_find?_none {map : SortedMap κ ν} {key : κ} (missing : map.find? key = none) : map.erase key = map := by
  apply ext_find?
  intro probe
  rw [find?_erase]
  by_cases same : probe = key
  · rw [if_pos same, same, missing]
  · rw [if_neg same]

theorem insert_perm (map : SortedMap κ ν) (key : κ) (value : ν) :
    (map.insert key value).bindings.Perm ((key, value) :: (map.erase key).bindings) := by
  have erased : (map.insert key value).erase key = map.erase key := by
    apply ext_find?
    intro probe
    rw [find?_erase, find?_erase, find?_insert]
    by_cases same : probe = key <;> simp [same]
  rw [← erased]
  exact perm_of_find? (by rw [find?_insert, if_pos rfl])

theorem foldl_erase_find? (keys : List κ) (map : SortedMap κ ν) (key : κ) :
    (keys.foldl erase map).find? key = if key ∈ keys then none else map.find? key := by
  induction keys generalizing map with
  | nil => simp
  | cons first rest ih =>
    rw [List.foldl_cons, ih, find?_erase]
    by_cases later : key ∈ rest <;> by_cases here : key = first <;> simp [later, here]

end SortedMap

end Enigma
