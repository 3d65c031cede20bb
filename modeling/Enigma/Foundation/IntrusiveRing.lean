import Mathlib.Data.List.Chain
import Mathlib.Data.List.Nodup
import Mathlib.Logic.Function.Basic

/-! Circular doubly linked lists whose links live in their nodes. A list is a ring
through a head node of its own; several rings may share the memory of the links. -/

namespace Enigma

/-- The two link fields of every node. A field that is null or was never written has
no value, and reading through it fails. -/
structure Links (ν : Type) where
  next : ν → Option ν
  prev : ν → Option ν

namespace Links

variable {ν : Type} [DecidableEq ν]

def setNext (links : Links ν) (node : ν) (target : Option ν) : Links ν :=
  { links with next := Function.update links.next node target }

def setPrev (links : Links ν) (node : ν) (target : Option ν) : Links ν :=
  { links with prev := Function.update links.prev node target }

/-- Each field is read again after the writes before it. -/
def unlink (links : Links ν) (node : ν) : Option (Links ν) := do
  let after ← links.next node
  let links := links.setPrev after (links.prev node)
  let before ← links.prev node
  return links.setNext before (links.next node)

def linkLast (links : Links ν) (head node : ν) : Option (Links ν) := do
  let links := links.setNext node (some head)
  let links := links.setPrev node (links.prev head)
  let before ← links.prev node
  let links := links.setNext before (some node)
  let after ← links.next node
  return links.setPrev after (some node)

/-- What a node's memory holds after it has been given back. -/
def forget (links : Links ν) (node : ν) : Links ν :=
  (links.setNext node none).setPrev node none

@[simp] theorem setNext_next (links : Links ν) (node other : ν) (target : Option ν) :
    (links.setNext node target).next other = if other = node then target else links.next other := by
  simp [setNext, Function.update_apply]

@[simp] theorem setNext_prev (links : Links ν) (node : ν) (target : Option ν) :
    (links.setNext node target).prev = links.prev := rfl

@[simp] theorem setPrev_prev (links : Links ν) (node other : ν) (target : Option ν) :
    (links.setPrev node target).prev other = if other = node then target else links.prev other := by
  simp [setPrev, Function.update_apply]

@[simp] theorem setPrev_next (links : Links ν) (node : ν) (target : Option ν) :
    (links.setPrev node target).next = links.next := rfl

omit [DecidableEq ν]

def Follows (links : Links ν) (left right : ν) : Prop :=
  links.next left = some right ∧ links.prev right = some left

/-- The nodes between a head and itself, in the order of their links. -/
structure Ring (links : Links ν) (head : ν) (nodes : List ν) : Prop where
  linked : (head :: (nodes ++ [head])).IsChain links.Follows
  distinct : (head :: nodes).Nodup

/-- The fields of every other node are what they were. -/
def SameOutside (links changed : Links ν) (nodes : List ν) : Prop :=
  ∀ node, node ∉ nodes → changed.next node = links.next node ∧ changed.prev node = links.prev node

theorem chain_frame {links changed : Links ν} {nodes : List ν} (chain : nodes.IsChain links.Follows)
    (nexts : ∀ node ∈ nodes.dropLast, changed.next node = links.next node)
    (prevs : ∀ node ∈ nodes.tail, changed.prev node = links.prev node) : nodes.IsChain changed.Follows := by
  induction nodes with
  | nil => exact .nil
  | cons first rest ih =>
    cases rest with
    | nil => exact .singleton _
    | cons second later =>
      obtain ⟨⟨forward, backward⟩, chain⟩ := List.isChain_cons_cons.mp chain
      refine List.isChain_cons_cons.mpr ⟨⟨?_, ?_⟩, ih chain ?_ ?_⟩
      · exact (nexts first (by simp)).trans forward
      · exact (prevs second (by simp)).trans backward
      · exact fun node member => nexts node (by simp [List.dropLast_cons_cons, member])
      · exact fun node member => prevs node (List.mem_of_mem_tail member)

theorem Ring.frame {links changed : Links ν} {head : ν} {nodes outside : List ν} (ring : links.Ring head nodes)
    (same : links.SameOutside changed outside) (apart : ∀ node ∈ head :: nodes, node ∉ outside) :
    changed.Ring head nodes := by
  refine ⟨chain_frame ring.linked ?_ ?_, ring.distinct⟩
  · intro node member
    rw [← List.cons_append, List.dropLast_concat] at member
    exact (same node (apart node member)).1
  · intro node member
    have inside : node ∈ head :: nodes := by simpa [or_comm] using member
    exact (same node (apart node inside)).2

theorem ring_empty {links : Links ν} {head : ν} (forward : links.next head = some head)
    (backward : links.prev head = some head) : links.Ring head [] :=
  ⟨List.isChain_cons_cons.mpr ⟨⟨forward, backward⟩, .singleton _⟩, List.nodup_singleton head⟩

theorem Ring.next_head {links : Links ν} {head : ν} {nodes : List ν} (ring : links.Ring head nodes) :
    links.next head = some (nodes.headD head) := by
  have linked := ring.linked
  cases nodes with
  | nil => exact (List.isChain_cons_cons.mp linked).1.1
  | cons first rest => exact (List.isChain_cons_cons.mp linked).1.1

theorem exists_concat (first : ν) (rest : List ν) : ∃ init last, first :: rest = init ++ [last] :=
  ⟨_, _, (List.dropLast_append_getLast (List.cons_ne_nil first rest)).symm⟩

variable [DecidableEq ν]

theorem Ring.unlink {links : Links ν} {head node : ν} {front back : List ν}
    (ring : links.Ring head (front ++ node :: back)) :
    ∃ changed, links.unlink node = some changed ∧ changed.Ring head (front ++ back) ∧
      links.SameOutside changed (head :: (front ++ back)) := by
  obtain ⟨init, before, lead⟩ := exists_concat head front
  obtain ⟨after, rest, trail⟩ : ∃ after rest, back ++ [head] = after :: rest := by
    cases back with
    | nil => exact ⟨head, [], rfl⟩
    | cons first later => exact ⟨first, later ++ [head], rfl⟩
  have distinct : (head :: front ++ node :: back).Nodup := ring.distinct
  have linked : ((head :: front) ++ node :: (back ++ [head])).IsChain links.Follows := by
    simpa using ring.linked
  rw [lead, trail, List.append_assoc, List.singleton_append, List.isChain_split, List.isChain_cons_cons,
    List.isChain_cons_cons] at linked
  obtain ⟨ahead, ⟨nodeAfter, nodeBefore⟩, ⟨afterAfter, afterBefore⟩, behind⟩ := linked
  have beforeInside : before ∈ head :: front := lead ▸ by simp
  have afterInside : after ∈ back ++ [head] := trail ▸ by simp
  let changed := (links.setPrev after (some before)).setNext before (some after)
  have computed : links.unlink node = some changed := by
    simp [Links.unlink, afterAfter, nodeBefore, changed]
  have nexts : ∀ other, other ≠ before → changed.next other = links.next other := fun other apart => by
    simp [changed, apart]
  have prevs : ∀ other, other ≠ after → changed.prev other = links.prev other := fun other apart => by
    simp [changed, apart]
  refine ⟨changed, computed, ⟨?_, distinct.sublist (by simp)⟩, ?_⟩
  · have joined : head :: (front ++ back ++ [head]) = init ++ before :: after :: rest := by
      rw [List.append_assoc, ← List.cons_append, lead, trail]
      simp
    have leadDistinct : (init ++ [before]).Nodup := lead ▸ distinct.sublist (List.sublist_append_left ..)
    have trailDistinct : (after :: rest).Nodup := by
      rw [← trail]
      simp only [List.cons_append, List.nodup_cons, List.mem_append, List.mem_cons, List.nodup_append] at distinct ⊢
      grind
    rw [joined, List.isChain_split, List.isChain_cons_cons]
    refine ⟨chain_frame ahead ?_ ?_, ⟨by simp [changed], by simp [changed]⟩, chain_frame behind ?_ ?_⟩
    · intro other member
      rw [List.dropLast_concat] at member
      refine nexts other ?_
      rintro rfl
      grind
    · intro other member
      rw [← lead, List.tail_cons] at member
      refine prevs other ?_
      rintro rfl
      grind
    · intro other member
      rw [← trail, List.dropLast_concat] at member
      refine nexts other ?_
      rintro rfl
      grind
    · intro other member
      refine prevs other ?_
      rintro rfl
      exact (List.nodup_cons.mp trailDistinct).1 member
  · intro other outside
    have beforeOutside : other ≠ before := by grind
    have afterOutside : other ≠ after := by grind
    exact ⟨nexts other beforeOutside, prevs other afterOutside⟩

theorem Ring.linkLast {links : Links ν} {head node : ν} {nodes : List ν} (ring : links.Ring head nodes)
    (fresh : node ∉ head :: nodes) :
    ∃ changed, links.linkLast head node = some changed ∧ changed.Ring head (nodes ++ [node]) ∧
      links.SameOutside changed (node :: head :: nodes) := by
  obtain ⟨init, last, lead⟩ := exists_concat head nodes
  have linked := ring.linked
  have joined : head :: (nodes ++ [head]) = init ++ last :: [head] := by
    rw [← List.cons_append, lead]
    simp
  rw [joined, List.isChain_split, List.isChain_cons_cons] at linked
  obtain ⟨ahead, ⟨lastNext, headPrev⟩, _⟩ := linked
  have distinct : (init ++ [last]).Nodup := lead ▸ ring.distinct
  have lastInside : last ∈ head :: nodes := lead ▸ by simp
  have headApart : head ≠ node := by grind
  have lastApart : node ≠ last := by grind
  let changed := (((links.setNext node (some head)).setPrev node (some last)).setNext last (some node)).setPrev
    head (some node)
  have computed : links.linkLast head node = some changed := by
    simp [Links.linkLast, headPrev, lastApart, changed]
  have nexts : ∀ other, other ≠ last → other ≠ node → changed.next other = links.next other :=
    fun other apart different => by simp [changed, apart, different]
  have prevs : ∀ other, other ≠ head → other ≠ node → changed.prev other = links.prev other :=
    fun other apart different => by simp [changed, apart, different]
  refine ⟨changed, computed, ⟨?_, ?_⟩, ?_⟩
  · have extended : head :: (nodes ++ [node] ++ [head]) = init ++ last :: [node, head] := by
      rw [List.append_assoc, ← List.cons_append, lead]
      simp
    rw [extended, List.isChain_split, List.isChain_cons_cons, List.isChain_cons_cons]
    refine ⟨chain_frame ahead ?_ ?_, ⟨?_, ?_⟩, ⟨?_, ?_⟩, .singleton _⟩
    · intro other member
      rw [List.dropLast_concat] at member
      have inside : other ∈ head :: nodes := by rw [lead]; exact List.mem_append_left _ member
      exact nexts other (by grind) (by grind)
    · intro other member
      rw [← lead, List.tail_cons] at member
      have headFresh := (List.nodup_cons.mp ring.distinct).1
      exact prevs other (by grind) (by grind)
    · simp [changed]
    · simp [changed, headApart.symm]
    · simp [changed, lastApart]
    · simp [changed]
  · rw [← List.cons_append]
    exact ring.distinct.append (List.nodup_singleton node) (by simpa using fresh)
  · intro other outside
    exact ⟨nexts other (by grind) (by grind), prevs other (by grind) (by grind)⟩

theorem sameOutside_forget (links : Links ν) (node : ν) : links.SameOutside (links.forget node) [node] := by
  intro other outside
  have apart : other ≠ node := by simpa using outside
  exact ⟨by simp [forget, apart], by simp [forget, apart]⟩

end Links

end Enigma
