import Mathlib.Data.List.Nodup
import Mathlib.Logic.Function.Basic

/-! Singly linked chains whose links live in their nodes. The chains start in the
slots of a table; where a link is kept is a place that can be read and written. -/

namespace Enigma

structure Chains (ν : Type) where
  heads : List (Option ν)
  next : ν → Option ν

inductive Place (ν : Type) where
  | head (slot : Nat)
  | after (node : ν)
  deriving DecidableEq

variable {ν : Type}

/-- The place behind some nodes that are passed one after the other. -/
def Place.past (place : Place ν) : List ν → Place ν
  | [] => place
  | node :: later => (Place.after node).past later

/-- The links lead from one node through others to a third one. -/
def Leads (next : ν → Option ν) (start : Option ν) : List ν → Option ν → Prop
  | [], target => start = target
  | node :: later, target => start = some node ∧ Leads next (next node) later target

theorem leads_cons {next : ν → Option ν} {start target : Option ν} {node : ν} {later : List ν} :
    Leads next start (node :: later) target ↔ start = some node ∧ Leads next (next node) later target := Iff.rfl

theorem leads_append {next : ν → Option ν} {start target : Option ν} (front back : List ν) :
    Leads next start (front ++ back) target ↔
      ∃ middle, Leads next start front middle ∧ Leads next middle back target := by
  induction front generalizing start with
  | nil =>
    constructor
    · intro leads
      exact ⟨start, rfl, leads⟩
    · rintro ⟨middle, same, leads⟩
      rw [show start = middle from same]
      exact leads
  | cons node later ih =>
    rw [List.cons_append, leads_cons, ih]
    constructor
    · rintro ⟨first, middle, front, back⟩
      exact ⟨middle, ⟨first, front⟩, back⟩
    · rintro ⟨middle, ⟨first, front⟩, back⟩
      exact ⟨first, middle, front, back⟩

theorem Leads.congr {next other : ν → Option ν} {start target : Option ν} {nodes : List ν}
    (leads : Leads next start nodes target) (same : ∀ node ∈ nodes, other node = next node) :
    Leads other start nodes target := by
  induction nodes generalizing start with
  | nil => exact leads
  | cons node later ih =>
    refine ⟨leads.1, ?_⟩
    rw [same node (List.mem_cons_self ..)]
    exact ih leads.2 fun other member => same other (List.mem_cons_of_mem _ member)

theorem forall₂_leads_congr {next other : ν → Option ν} {starts : List (Option ν)} {lists : List (List ν)}
    (leads : List.Forall₂ (fun start chain => Leads next start chain none) starts lists)
    (same : ∀ node ∈ lists.flatten, other node = next node) :
    List.Forall₂ (fun start chain => Leads other start chain none) starts lists := by
  induction leads with
  | nil => exact .nil
  | cons first later ih =>
    rw [List.flatten_cons] at same
    refine .cons (first.congr fun node member => same node (List.mem_append_left _ member)) (ih ?_)
    exact fun node member => same node (List.mem_append_right _ member)

/-- A chain begins with its first node. -/
theorem Leads.head? {next : ν → Option ν} {start : Option ν} {nodes : List ν} (leads : Leads next start nodes none) :
    start = nodes.head? := by
  cases nodes with
  | nil => exact leads
  | cons node later => exact leads.1

theorem Leads.tail {next : ν → Option ν} {start : Option ν} {nodes : List ν} (leads : Leads next start nodes none) :
    Leads next (start.bind next) nodes.tail none := by
  cases nodes with
  | nil =>
    rw [show start = none from leads]
    rfl
  | cons node later =>
    rw [leads.1]
    exact leads.2

theorem Place.past_head_or (place : Place ν) (passed : List ν) :
    (passed = [] ∧ place.past passed = place) ∨ ∃ node ∈ passed, place.past passed = .after node := by
  induction passed generalizing place with
  | nil => exact .inl ⟨rfl, rfl⟩
  | cons node later ih =>
    rcases ih (.after node) with ⟨none, same⟩ | ⟨last, member, same⟩
    · exact .inr ⟨node, List.mem_cons_self .., same⟩
    · exact .inr ⟨last, List.mem_cons_of_mem _ member, same⟩

namespace Chains

/-- A slot that the table does not have cannot be read. -/
def read (chains : Chains ν) : Place ν → Option (Option ν)
  | .head slot => chains.heads[slot]?
  | .after node => some (chains.next node)

/-- The place behind the nodes of a chain has what the chain leads to. -/
theorem read_past {chains : Chains ν} {place : Place ν} {start middle : Option ν} {passed : List ν}
    (readable : chains.read place = some start) (leads : Leads chains.next start passed middle) :
    chains.read (place.past passed) = some middle := by
  induction passed generalizing place start with
  | nil =>
    rw [← show start = middle from leads, ← readable]
    rfl
  | cons node later ih => exact ih rfl leads.2

/-- The chains of a table, slot by slot. -/
structure Stored (chains : Chains ν) (buckets : List (List ν)) : Prop where
  sized : chains.heads.length = buckets.length
  leads : ∀ (slot : Nat) (chain : List ν), buckets[slot]? = some chain →
    ∃ start, chains.heads[slot]? = some start ∧ Leads chains.next start chain none

theorem stored_empty (next : ν → Option ν) (size : Nat) :
    Stored ⟨List.replicate size none, next⟩ (List.replicate size []) where
  sized := by rw [List.length_replicate, List.length_replicate]
  leads := by
    intro slot chain found
    obtain ⟨inside, same⟩ := List.getElem?_eq_some_iff.mp found
    rw [List.length_replicate] at inside
    rw [List.getElem_replicate] at same
    subst same
    exact ⟨none, by rw [List.getElem?_replicate, if_pos inside], rfl⟩

theorem Stored.forall₂ {chains : Chains ν} {buckets : List (List ν)} (stored : Stored chains buckets) :
    List.Forall₂ (fun start chain => Leads chains.next start chain none) chains.heads buckets := by
  refine List.forall₂_iff_get.mpr ⟨stored.sized, ?_⟩
  intro slot inside below
  obtain ⟨start, begins, leads⟩ := stored.leads slot _ (List.getElem?_eq_getElem below)
  rw [List.getElem?_eq_getElem inside] at begins
  cases begins
  exact leads

theorem disjoint_buckets {buckets : List (List ν)} (distinct : buckets.flatten.Nodup) {slot other : Nat}
    {chain others : List ν} (found : buckets[slot]? = some chain) (listed : buckets[other]? = some others)
    (different : slot ≠ other) : ∀ node ∈ chain, node ∉ others := by
  have pairwise := (List.nodup_flatten.mp distinct).2
  obtain ⟨inside, rfl⟩ := List.getElem?_eq_some_iff.mp found
  obtain ⟨below, rfl⟩ := List.getElem?_eq_some_iff.mp listed
  intro node member shared
  rcases Nat.lt_or_gt_of_ne different with before | behind
  · exact List.pairwise_iff_getElem.mp pairwise _ _ inside below before member shared
  · exact List.pairwise_iff_getElem.mp pairwise _ _ below inside behind shared member

variable [DecidableEq ν]

def setNext (chains : Chains ν) (node : ν) (target : Option ν) : Chains ν :=
  { chains with next := Function.update chains.next node target }

def write (chains : Chains ν) (target : Option ν) : Place ν → Chains ν
  | .head slot => { chains with heads := chains.heads.set slot target }
  | .after node => chains.setNext node target

theorem write_next {chains : Chains ν} {target : Option ν} {place : Place ν} {node : ν} (other : place ≠ .after node) :
    (chains.write target place).next node = chains.next node := by
  cases place with
  | head slot => rfl
  | after written =>
    refine Function.update_of_ne ?_ _ _
    rintro rfl
    exact other rfl

theorem write_heads {chains : Chains ν} {target : Option ν} {place : Place ν} {slot : Nat}
    (other : place ≠ .head slot) :
    (chains.write target place).heads[slot]? = chains.heads[slot]? := by
  cases place with
  | head written =>
    refine List.getElem?_set_ne ?_
    rintro rfl
    exact other rfl
  | after node => rfl

theorem write_read {chains : Chains ν} {target : Option ν} {place other : Place ν} (different : place ≠ other) :
    (chains.write target place).read other = chains.read other := by
  cases other with
  | head slot => exact write_heads different
  | after node => exact congrArg some (write_next different)

theorem write_read_self {chains : Chains ν} {target start : Option ν} {place : Place ν}
    (readable : chains.read place = some start) : (chains.write target place).read place = some target := by
  cases place with
  | head slot =>
    have inside := (List.getElem?_eq_some_iff.mp readable).1
    exact List.getElem?_set_self inside
  | after node => exact congrArg some (Function.update_self ..)

/-- Writing there redirects the chain. -/
theorem write_past {chains : Chains ν} {place : Place ν} {start middle target : Option ν} {passed : List ν}
    (readable : chains.read place = some start) (leads : Leads chains.next start passed middle)
    (distinct : passed.Nodup) (apart : ∀ node ∈ passed, place ≠ .after node) :
    ∃ begin, (chains.write target (place.past passed)).read place = some begin ∧
      Leads (chains.write target (place.past passed)).next begin passed target := by
  induction passed generalizing place start with
  | nil => exact ⟨target, write_read_self readable, rfl⟩
  | cons node later ih =>
    obtain ⟨fresh, distinct⟩ := List.nodup_cons.mp distinct
    have others : ∀ other ∈ later, Place.after node ≠ .after other := by
      intro other member same
      cases same
      exact fresh member
    obtain ⟨begin, follows, rest⟩ := ih rfl leads.2 distinct others
    refine ⟨some node, ?_, rfl, ?_⟩
    · rw [write_read, readable, leads.1]
      rcases Place.past_head_or (.after node) later with ⟨_, same⟩ | ⟨last, member, same⟩
      · exact fun written => apart node (List.mem_cons_self ..) (written.symm.trans same)
      · exact fun written => apart last (List.mem_cons_of_mem _ member) (written.symm.trans same)
    · cases follows
      exact rest

theorem write_length (chains : Chains ν) (target : Option ν) (place : Place ν) :
    (chains.write target place).heads.length = chains.heads.length := by
  cases place with
  | head slot => exact List.length_set
  | after node => rfl

theorem write_past_next {chains : Chains ν} {target : Option ν} {slot : Nat} {passed : List ν} {node : ν}
    (outside : node ∉ passed) : (chains.write target ((Place.head slot).past passed)).next node = chains.next node := by
  apply write_next
  intro written
  rcases Place.past_head_or (Place.head slot) passed with ⟨_, head⟩ | ⟨last, member, after⟩
  · cases head.symm.trans written
  · cases after.symm.trans written
    exact outside member

theorem write_past_heads {chains : Chains ν} {target : Option ν} {slot other : Nat} (passed : List ν)
    (different : slot ≠ other) :
    (chains.write target ((Place.head slot).past passed)).heads[other]? = chains.heads[other]? := by
  apply write_heads
  intro written
  rcases Place.past_head_or (Place.head slot) passed with ⟨_, head⟩ | ⟨last, member, after⟩
  · cases head.symm.trans written
    exact different rfl
  · cases after.symm.trans written

/-- What lies behind a place of a chain is exchanged by a write to it. Up to then only
nodes that lay there have been relinked. -/
theorem Stored.splice {chains : Chains ν} {buckets : List (List ν)} {slot : Nat} {passed ahead fresh : List ν}
    {target : Option ν} {next : ν → Option ν} (stored : Stored chains buckets) (distinct : buckets.flatten.Nodup)
    (found : buckets[slot]? = some (passed ++ ahead))
    (same : ∀ node ∈ buckets.flatten, node ∉ ahead → next node = chains.next node)
    (leads : Leads next target fresh none) (apart : ∀ node ∈ fresh, node ∉ passed) :
    Stored ((Chains.mk chains.heads next).write target ((Place.head slot).past passed))
      (buckets.set slot (passed ++ fresh)) where
  sized := by rw [write_length, List.length_set, stored.sized]
  leads := by
    have inside : ∀ {index : Nat} {chain : List ν}, buckets[index]? = some chain →
        ∀ node ∈ chain, node ∈ buckets.flatten :=
      fun listed node member => List.mem_flatten_of_mem (List.mem_of_getElem? listed) member
    intro index chain listed
    by_cases here : slot = index
    · subst here
      have within := (List.getElem?_eq_some_iff.mp found).1
      rw [List.getElem?_set_self within] at listed
      cases listed
      obtain ⟨start, begins, whole⟩ := stored.leads slot _ found
      obtain ⟨middle, front, _⟩ := (leads_append passed ahead).mp whole
      have separate := List.nodup_append.mp ((List.nodup_flatten.mp distinct).1 _ (List.mem_of_getElem? found))
      have unchanged : ∀ node ∈ passed, next node = chains.next node := fun node member =>
        same node (inside found node (List.mem_append_left _ member)) fun behind =>
          separate.2.2 node member node behind rfl
      have readable : (Chains.mk chains.heads next).read (Place.head slot) = some start := begins
      have headed : ∀ node ∈ passed, Place.head slot ≠ .after node := fun _ _ written => by cases written
      obtain ⟨begin, changed, redirected⟩ := write_past readable (front.congr unchanged) separate.1 headed
      refine ⟨begin, changed, (leads_append passed fresh).mpr ⟨target, redirected, ?_⟩⟩
      exact leads.congr fun node member => write_past_next (apart node member)
    · rw [List.getElem?_set_ne here] at listed
      obtain ⟨start, begins, whole⟩ := stored.leads index chain listed
      have elsewhere : ∀ node ∈ chain, node ∉ passed ++ ahead := disjoint_buckets distinct listed found (Ne.symm here)
      refine ⟨start, (write_past_heads passed here).trans begins, whole.congr ?_⟩
      intro node member
      rw [write_past_next fun early => elsewhere node member (List.mem_append_left _ early)]
      exact same node (inside listed node member) fun late => elsewhere node member (List.mem_append_right _ late)

/-- A node is put in front of a chain. -/
theorem Stored.push {chains : Chains ν} {buckets : List (List ν)} {slot : Nat} {node : ν} {start : Option ν}
    (stored : Stored chains buckets) (distinct : buckets.flatten.Nodup) (outside : node ∉ buckets.flatten)
    (begins : chains.heads[slot]? = some start) :
    Stored ((chains.setNext node start).write (some node) (.head slot)) (buckets.modify slot (node :: ·)) := by
  have inside : slot < buckets.length := stored.sized ▸ (List.getElem?_eq_some_iff.mp begins).1
  have found := List.getElem?_eq_getElem inside
  obtain ⟨head, same, leads⟩ := stored.leads slot _ found
  cases begins.symm.trans same
  have member : ∀ other ∈ buckets[slot], other ≠ node := by
    rintro other listed rfl
    exact outside (List.mem_flatten_of_mem (List.getElem_mem inside) listed)
  have others : ∀ other ∈ buckets.flatten, other ∉ buckets[slot] →
      Function.update chains.next node start other = chains.next other := by
    rintro other listed -
    refine Function.update_of_ne ?_ _ _
    rintro rfl
    exact outside listed
  have behind : Leads (Function.update chains.next node start) (some node) (node :: buckets[slot]) none := by
    refine ⟨rfl, ?_⟩
    rw [Function.update_self]
    exact leads.congr fun other listed => Function.update_of_ne (member other listed) _ _
  have pushed := stored.splice distinct (show buckets[slot]? = some ([] ++ buckets[slot]) from found) others behind
    fun _ _ => List.not_mem_nil
  have changed : buckets.modify slot (node :: ·) = buckets.set slot (node :: buckets[slot]) := by
    rw [List.modify_eq_take_cons_drop inside, List.set_eq_take_append_cons_drop, if_pos inside]
  rw [changed]
  exact pushed

end Chains

end Enigma
