import Enigma.Foundation.PriorityQueue
import Enigma.Compaction.MergeInvariant

/-! The merge over source objects. Its heap holds pointers, and the order of a heap
stands only as long as the sources on it stay where they are. A call of `key`,
`value` or `next` on a source that is not valid has no result here, and neither has
work on a heap whose order no longer stands. -/

namespace Enigma

/-- A source iterator: the entries it goes through, the position at which it fails
if it does, and what it has ahead of it now. -/
structure Source where
  entries : List Entry
  failsAt : Option (Nat × Error)
  ahead : Cursor

namespace Source

def contents (source : Source) : Cursor :=
  match source.failsAt with
  | none => ⟨source.entries, none⟩
  | some (position, error) => ⟨source.entries.take position, some error⟩

def seekToFirst (source : Source) : Source := { source with ahead := source.contents }

def valid (source : Source) : Bool := !source.ahead.rest.isEmpty

/-- `key` and `value` of a valid source. -/
def entry? (source : Source) : Option Entry := source.ahead.rest.head?

/-- `next` of a valid source. -/
def next? (source : Source) : Option Source :=
  match source.ahead.rest with
  | [] => none
  | _ :: rest => some { source with ahead := ⟨rest, source.ahead.failure⟩ }

/-- The error of a source that has become invalid with one. -/
def failure? (source : Source) : Option Error := if source.valid then none else source.ahead.failure

end Source

structure HeapPointer where
  source : Nat
  /-- The source's entry when the pointer was pushed, by which the heap is arranged. -/
  arranged : Entry

def HeapPointer.below (left right : HeapPointer) : Bool :=
  HeapEntry.below ⟨left.arranged, [], none⟩ ⟨right.arranged, [], none⟩

structure PointerMerge (queue : PriorityQueue HeapPointer.below) where
  sources : List Source
  heap : queue.Heap
  error : Option Error
  current : Entry
  valid : Bool

namespace PointerMerge

variable {queue : PriorityQueue HeapPointer.below}

def entryOf (sources : List Source) (pointer : Nat) : Option Entry := sources[pointer]?.bind Source.entry?

/-- Whether every source on the heap is valid and at the entry that the heap is
arranged by. The comparator looks at them whenever the heap is worked on. -/
def arranged (merge : PointerMerge queue) : Bool :=
  (queue.members merge.heap).all fun pointer => entryOf merge.sources pointer.source = some pointer.arranged

def setError (merge : PointerMerge queue) (error : Error) : PointerMerge queue :=
  { merge with error := some error, valid := false, heap := queue.empty }

def push (merge : PointerMerge queue) (pointer : Nat) : Option (PointerMerge queue) := do
  let entry ← entryOf merge.sources pointer
  if merge.arranged then some { merge with heap := queue.push ⟨pointer, entry⟩ merge.heap } else none

/-- What becomes of a source that was just moved. -/
def takeBack (merge : PointerMerge queue) (pointer : Nat) (source : Source) : Option (PointerMerge queue) :=
  let merge := { merge with sources := merge.sources.set pointer source }
  if source.valid then merge.push pointer
  else
    match source.failure? with
    | some error => some (merge.setError error)
    | none => some merge

def advanceAndRepush (merge : PointerMerge queue) (pointer : Nat) : Option (PointerMerge queue) := do
  let source ← merge.sources[pointer]?
  let source ← source.next?
  merge.takeBack pointer source

/-- How many entries the sources on the heap have ahead of them. -/
def load (merge : PointerMerge queue) : Nat :=
  ((queue.members merge.heap).map fun pointer =>
    (merge.sources[pointer.source]?.map fun source => source.ahead.rest.length).getD 0).sum

def dropDuplicates : Nat → PointerMerge queue → Option (PointerMerge queue)
  | 0, merge => some merge
  | fuel + 1, merge =>
    match queue.pop merge.heap with
    | none => some merge
    | some (top, rest) => do
      let entry ← entryOf merge.sources top.source
      if entry.1 = merge.current.1 then
        if merge.arranged then do
          let merge ← { merge with heap := rest }.advanceAndRepush top.source
          dropDuplicates fuel merge
        else none
      else some merge

def advanceToWinner (merge : PointerMerge queue) : Option (PointerMerge queue) :=
  match queue.pop merge.heap with
  | none => some { merge with valid := false }
  | some (top, rest) => do
    let entry ← entryOf merge.sources top.source
    if merge.arranged then do
      let merge ← { merge with valid := true, current := entry, heap := rest }.advanceAndRepush top.source
      merge.dropDuplicates merge.load
    else none

def next (merge : PointerMerge queue) : Option (PointerMerge queue) := merge.advanceToWinner

/-- The loop of `seek_to_first` over the sources. -/
def seekSources : List Nat → PointerMerge queue → Option (PointerMerge queue)
  | [], merge => some merge
  | pointer :: later, merge => do
    let source ← merge.sources[pointer]?
    let merge ← merge.takeBack pointer source.seekToFirst
    if merge.error.isSome then some merge else seekSources later merge

def seekToFirst (merge : PointerMerge queue) : Option (PointerMerge queue) := do
  let merge ← seekSources (List.range merge.sources.length)
    { merge with heap := queue.empty, error := none, valid := false, current := (merge.current.1, ⟨[], false, 0⟩) }
  if merge.error.isSome then some merge else merge.advanceToWinner

def status (merge : PointerMerge queue) : Except Error Unit :=
  match merge.error with
  | some error => .error error
  | none => .ok ()

/-- Deliver entries while the iterator is valid. -/
def drain : Nat → PointerMerge queue → Option (List Entry × PointerMerge queue)
  | 0, merge => some ([], merge)
  | fuel + 1, merge =>
    if merge.valid then do
      let after ← merge.next
      let (later, last) ← drain fuel after
      return (merge.current :: later, last)
    else some ([], merge)

/-- `seek_to_first`, then `next` while valid. -/
def scan (merge : PointerMerge queue) : Option (List Entry × PointerMerge queue) := do
  let first ← merge.seekToFirst
  drain (first.load + 1) first

/-- So many calls of `next`. -/
def nexts : Nat → PointerMerge queue → Option (PointerMerge queue)
  | 0, merge => some merge
  | count + 1, merge => do
    let after ← merge.next
    nexts count after

/-- The source behind a pointer, as a value. -/
def held (sources : List Source) (pointer : HeapPointer) : HeapEntry :=
  match sources[pointer.source]? with
  | some source => ⟨pointer.arranged, source.ahead.rest.tail, source.ahead.failure⟩
  | none => ⟨pointer.arranged, [], none⟩

/-- The merge over objects stands as a merge over values: no source is on the heap
twice, and the order of the heap stands. -/
structure Stands (merge : PointerMerge queue) (values : MergeIterator) : Prop where
  error : values.error = merge.error
  current : values.current = merge.current
  valid : values.valid = merge.valid
  once : ((queue.members merge.heap).map HeapPointer.source).Nodup
  order : ∀ pointer ∈ queue.members merge.heap, entryOf merge.sources pointer.source = some pointer.arranged
  heap : values.heap.Perm ((queue.members merge.heap).map (held merge.sources))

section

variable {merge : PointerMerge queue} {values : MergeIterator} {sources : List Source}

theorem entryOf_eq_some {pointer : Nat} {entry : Entry} (found : entryOf sources pointer = some entry) :
    ∃ source tail, sources[pointer]? = some source ∧ source.ahead.rest = entry :: tail := by
  obtain ⟨source, present, head⟩ := Option.bind_eq_some_iff.mp found
  obtain ⟨tail, shape⟩ := List.head?_eq_some_iff.mp head
  exact ⟨source, tail, present, shape⟩

@[simp] theorem held_head (sources : List Source) (pointer : HeapPointer) :
    (held sources pointer).head = pointer.arranged := by
  unfold held
  split <;> rfl

theorem held_below (sources : List Source) (left right : HeapPointer) :
    (held sources left).below (held sources right) = left.below right := by
  simp only [HeapPointer.below, HeapEntry.below, held_head]

/-- Another source does not matter to a pointer. -/
theorem held_set {pointer : HeapPointer} {place : Nat} (apart : pointer.source ≠ place) (source : Source) :
    held (sources.set place source) pointer = held sources pointer := by
  simp only [held, List.getElem?_set_ne apart.symm]

theorem entryOf_set {pointer place : Nat} (apart : pointer ≠ place) (source : Source) :
    entryOf (sources.set place source) pointer = entryOf sources pointer := by
  simp only [entryOf, List.getElem?_set_ne apart.symm]

theorem Stands.arranged (stands : Stands merge values) : merge.arranged = true := by
  apply List.all_eq_true.mpr
  intro pointer member
  exact decide_eq_true (stands.order pointer member)

theorem Stands.load_eq (stands : Stands merge values) : merge.load = MergeIterator.weight values.heap := by
  rw [MergeIterator.weight_perm stands.heap, MergeIterator.weight, load, List.map_map]
  congr 1
  apply List.map_congr_left
  intro pointer member
  obtain ⟨source, tail, present, shape⟩ := entryOf_eq_some (stands.order pointer member)
  simp [held, present, shape, HeapEntry.entries]

/-- A source that is not on the heap is set somewhere and taken back: the merge over
values takes it back too. -/
theorem Stands.takeBack (stands : Stands merge values) {place : Nat} (inside : place < merge.sources.length)
    (apart : ∀ pointer ∈ queue.members merge.heap, pointer.source ≠ place) (source : Source) (past : Entry) :
    ∃ after, merge.takeBack place source = some after ∧
      Stands after (values.advanceAndRepush ⟨past, source.ahead.rest, source.ahead.failure⟩) ∧
      after.sources = merge.sources.set place source ∧
      ∀ pointer ∈ queue.members after.heap, pointer.source = place ∨ pointer ∈ queue.members merge.heap := by
  obtain ⟨entries, failsAt, rest, failure⟩ := source
  have mapped : ∀ source, (queue.members merge.heap).map (held (merge.sources.set place source)) =
      (queue.members merge.heap).map (held merge.sources) := by
    intro source
    apply List.map_congr_left
    intro pointer member
    exact held_set (apart pointer member) source
  have moved : ∀ source, Stands { merge with sources := merge.sources.set place source } values := by
    intro source
    refine { stands with order := ?_, heap := by rw [mapped]; exact stands.heap }
    intro pointer member
    rw [entryOf_set (apart pointer member)]
    exact stands.order pointer member
  cases rest with
  | cons entry tail =>
    let source : Source := ⟨entries, failsAt, entry :: tail, failure⟩
    let pointer : HeapPointer := ⟨place, entry⟩
    have found : entryOf (merge.sources.set place source) place = some entry := by
      simp [entryOf, List.getElem?_set_self inside, source, Source.entry?]
    have members := queue.members_push pointer merge.heap
    have valid : source.valid = true := rfl
    refine ⟨{ merge with sources := merge.sources.set place source, heap := queue.push pointer merge.heap }, ?_, ?_, rfl, ?_⟩
    · simp only [PointerMerge.takeBack, source, Source.valid, List.isEmpty_cons, Bool.not_false, ↓reduceIte, push]
      rw [found, Option.bind_eq_bind, Option.bind_some, if_pos (moved source).arranged]
    · refine ⟨stands.error, stands.current, stands.valid, ?_, ?_, ?_⟩
      · refine ((members.map HeapPointer.source).nodup_iff).mpr ?_
        refine List.nodup_cons.mpr ⟨?_, stands.once⟩
        intro member
        obtain ⟨other, held, same⟩ := List.mem_map.mp member
        exact apart other held same
      · intro other member
        rcases List.mem_cons.mp (members.mem_iff.mp member) with here | earlier
        · rw [here]
          exact found
        · exact (moved source).order other earlier
      · refine List.Perm.trans ?_ (members.map _).symm
        have first : held (merge.sources.set place source) pointer = ⟨entry, tail, failure⟩ := by
          simp [held, pointer, List.getElem?_set_self inside, source]
        rw [List.map_cons, mapped, first]
        exact stands.heap.cons _
    · intro other member
      rcases List.mem_cons.mp (members.mem_iff.mp member) with here | earlier
      · exact .inl (congrArg HeapPointer.source here)
      · exact .inr earlier
  | nil =>
    cases failure with
    | some error =>
      refine ⟨_, rfl, ?_, rfl, by simp [setError, queue.members_empty]⟩
      refine ⟨rfl, stands.current, rfl, ?_, ?_, ?_⟩
      · simp [setError, queue.members_empty]
      · simp [setError, queue.members_empty]
      · simp [setError, queue.members_empty, MergeIterator.advanceAndRepush, MergeIterator.setError]
    | none => exact ⟨_, rfl, moved _, rfl, fun _ member => .inr member⟩

/-- The top of the heap is taken off. -/
theorem Stands.popped (stands : Stands merge values) {top : HeapPointer} {rest : queue.Heap}
    (pop : queue.pop merge.heap = some (top, rest)) :
    PopsTop values.heap (held merge.sources top) ((queue.members rest).map (held merge.sources)) ∧
      entryOf merge.sources top.source = some top.arranged ∧
      Stands { merge with heap := rest } { values with heap := (queue.members rest).map (held merge.sources) } ∧
      ∀ pointer ∈ queue.members rest, pointer.source ≠ top.source := by
  have perm := queue.pop_perm pop
  have once := (perm.map HeapPointer.source).nodup_iff.mp stands.once
  obtain ⟨apart, later⟩ := List.nodup_cons.mp once
  refine ⟨⟨stands.heap.trans (perm.map _), ?_⟩, stands.order top (perm.mem_iff.mpr (by simp)), ?_, ?_⟩
  · intro other member
    obtain ⟨pointer, held, same⟩ := List.mem_map.mp member
    rw [← same, held_below]
    exact queue.pop_highest pop pointer held
  · refine ⟨stands.error, stands.current, stands.valid, later, ?_, .refl _⟩
    exact fun pointer member => stands.order pointer (perm.mem_iff.mpr (by simp [member]))
  · intro pointer member same
    exact apart (List.mem_map.mpr ⟨pointer, member, same⟩)

/-- A source off the heap is advanced and comes back to it, if it can. -/
theorem Stands.advanced (stands : Stands merge values) {top : HeapPointer}
    (found : entryOf merge.sources top.source = some top.arranged)
    (apart : ∀ pointer ∈ queue.members merge.heap, pointer.source ≠ top.source) :
    ∃ after, merge.advanceAndRepush top.source = some after ∧
      Stands after (values.advanceAndRepush (held merge.sources top)) := by
  obtain ⟨source, tail, present, shape⟩ := entryOf_eq_some found
  have inside : top.source < merge.sources.length := (List.getElem?_eq_some_iff.mp present).1
  have next : source.next? = some { source with ahead := ⟨tail, source.ahead.failure⟩ } := by
    simp only [Source.next?, shape]
  obtain ⟨after, taken, kept, _, _⟩ := stands.takeBack inside apart
    { source with ahead := ⟨tail, source.ahead.failure⟩ } top.arranged
  refine ⟨after, ?_, ?_⟩
  · rw [advanceAndRepush, present, Option.bind_eq_bind, Option.bind_some, next, Option.bind_some]
    exact taken
  · have entry : held merge.sources top = ⟨top.arranged, tail, source.ahead.failure⟩ := by
      simp [held, present, shape]
    rw [entry]
    exact kept

theorem dropDuplicates_stands (fuel : Nat) (stands : Stands merge values)
    (enough : MergeIterator.weight values.heap ≤ fuel) :
    ∃ after last, merge.dropDuplicates fuel = some after ∧ MergeIterator.DropsDuplicates values last ∧ Stands after last := by
  induction fuel generalizing merge values with
  | zero =>
    have empty := MergeIterator.weight_eq_zero.mp (Nat.le_zero.mp enough)
    exact ⟨merge, values, rfl, .emptied empty, stands⟩
  | succ fuel ih =>
    simp only [dropDuplicates]
    cases pop : queue.pop merge.heap with
    | none =>
      have empty : values.heap = [] := by
        have heap := stands.heap
        rw [queue.pop_none pop] at heap
        exact List.perm_nil.mp heap
      exact ⟨merge, values, rfl, .emptied empty, stands⟩
    | some pair =>
      obtain ⟨top, rest⟩ := pair
      obtain ⟨pops, found, popped, apart⟩ := stands.popped pop
      simp only [found, Option.bind_eq_bind, Option.bind_some, stands.arranged, ↓reduceIte]
      split_ifs with same
      · obtain ⟨advanced, step, kept⟩ := popped.advanced found apart
        have lighter := MergeIterator.weight_advanceAndRepush { values with heap := _ } pops
        obtain ⟨after, last, run, drops, final⟩ := ih kept (by simp only at lighter ⊢; omega)
        refine ⟨after, last, ?_, ?_, final⟩
        · rw [step]
          exact run
        · refine .duplicate pops ?_ drops
          rw [held_head, same, stands.current]
      · refine ⟨merge, values, rfl, .different pops ?_, stands⟩
        rw [held_head, stands.current]
        exact same

theorem advanceToWinner_stands (stands : Stands merge values) :
    ∃ after last, merge.advanceToWinner = some after ∧ MergeIterator.AdvancesToWinner values last ∧ Stands after last := by
  simp only [advanceToWinner]
  cases pop : queue.pop merge.heap with
  | none =>
    have empty : values.heap = [] := by
      have heap := stands.heap
      rw [queue.pop_none pop] at heap
      exact List.perm_nil.mp heap
    exact ⟨_, _, rfl, .ended empty, { stands with valid := rfl }⟩
  | some pair =>
    obtain ⟨top, rest⟩ := pair
    obtain ⟨pops, found, popped, apart⟩ := stands.popped pop
    simp only [found, Option.bind_eq_bind, Option.bind_some, stands.arranged, ↓reduceIte]
    have shown : Stands { merge with valid := true, current := top.arranged, heap := rest }
        { values with valid := true, current := top.arranged, heap := (queue.members rest).map (held merge.sources) } :=
      { popped with current := rfl, valid := rfl }
    obtain ⟨advanced, step, kept⟩ := shown.advanced found apart
    obtain ⟨after, last, run, drops, final⟩ := dropDuplicates_stands advanced.load kept kept.load_eq.ge
    refine ⟨after, last, ?_, ?_, final⟩
    · rw [step]
      exact run
    · refine .winner pops ?_
      rw [held_head]
      exact drops

/-- What the source at a place delivers from its start on. -/
def contentsAt (sources : List Source) (place : Nat) : Cursor := (sources[place]?.map Source.contents).getD ⟨[], none⟩

theorem pushSources_cons (source : Cursor) (others : List Cursor) (values : MergeIterator) (past : Entry)
    (clean : values.error = none) : MergeIterator.pushSources (source :: others) values =
      if (values.advanceAndRepush ⟨past, source.rest, source.failure⟩).error.isSome then
        values.advanceAndRepush ⟨past, source.rest, source.failure⟩
      else MergeIterator.pushSources others (values.advanceAndRepush ⟨past, source.rest, source.failure⟩) := by
  obtain ⟨rest, failure⟩ := source
  cases rest with
  | cons entry tail => simp [MergeIterator.pushSources, MergeIterator.advanceAndRepush, clean]
  | nil =>
    cases failure with
    | some error => simp [MergeIterator.pushSources, MergeIterator.advanceAndRepush, MergeIterator.setError]
    | none => simp [MergeIterator.pushSources, MergeIterator.advanceAndRepush, clean]

/-- The loop over the sources that `seek_to_first` has still to seek. -/
theorem seekSources_stands {places : List Nat} (stands : Stands merge values) (clean : values.error = none)
    (distinct : places.Nodup) (inside : ∀ place ∈ places, place < merge.sources.length)
    (apart : ∀ pointer ∈ queue.members merge.heap, pointer.source ∉ places) :
    ∃ after, seekSources places merge = some after ∧
      Stands after (MergeIterator.pushSources (places.map (contentsAt merge.sources)) values) := by
  induction places generalizing merge values with
  | nil => exact ⟨merge, rfl, stands⟩
  | cons place later ih =>
    obtain ⟨fresh, distinct⟩ := List.nodup_cons.mp distinct
    have here := inside place (by simp)
    obtain ⟨source, present⟩ : ∃ source, merge.sources[place]? = some source := ⟨_, List.getElem?_eq_getElem here⟩
    obtain ⟨sought, taken, kept, moved, members⟩ := stands.takeBack here
      (fun pointer member same => apart pointer member (by simp [same])) source.seekToFirst ([], ⟨[], false, 0⟩)
    have first : contentsAt merge.sources place = source.seekToFirst.ahead := by simp [contentsAt, present, Source.seekToFirst]
    have others : later.map (contentsAt sought.sources) = later.map (contentsAt merge.sources) := by
      apply List.map_congr_left
      intro other member
      have different : other ≠ place := fun same => fresh (same ▸ member)
      simp only [contentsAt, moved, List.getElem?_set_ne different.symm]
    rw [List.map_cons, first, pushSources_cons _ _ _ ([], ⟨[], false, 0⟩) clean]
    simp only [seekSources, present, Option.bind_eq_bind, Option.bind_some, taken]
    rw [← kept.error]
    split_ifs with failed
    · exact ⟨sought, rfl, kept⟩
    · rw [← others]
      refine ih kept (Option.not_isSome_iff_eq_none.mp failed) distinct ?_ ?_
      · intro other member
        rw [moved, List.length_set]
        exact inside other (by simp [member])
      · intro pointer member listed
        rcases members pointer member with same | earlier
        · exact fresh (same ▸ listed)
        · exact apart pointer earlier (by simp [listed])

theorem drain_stands (fuel : Nat) (stands : Stands merge values)
    (enough : MergeIterator.weight values.heap < fuel ∨ values.valid = false) :
    ∃ output after last, merge.drain fuel = some (output, after) ∧ MergeIterator.Drains values output last ∧
      Stands after last := by
  induction fuel generalizing merge values with
  | zero =>
    rcases enough with less | ended
    · omega
    · exact ⟨[], merge, values, rfl, .invalid ended, stands⟩
  | succ fuel ih =>
    simp only [drain]
    split_ifs with valid
    · obtain ⟨stepped, between, step, advances, kept⟩ := advanceToWinner_stands stands
      have less : MergeIterator.weight between.heap < fuel ∨ between.valid = false := by
        rcases advances.lighter with ended | lighter
        · exact .inr ended
        · rcases enough with less | ended
          · exact .inl (by omega)
          · rw [← stands.valid, ended] at valid
            cases valid
      obtain ⟨output, after, last, run, drains, final⟩ := ih kept less
      refine ⟨merge.current :: output, after, last, ?_, ?_, final⟩
      · rw [next, step, Option.bind_eq_bind, Option.bind_some, run]
        rfl
      · rw [← stands.current]
        exact .deliver (stands.valid.trans valid) advances drains
    · exact ⟨[], merge, values, rfl, .invalid (stands.valid.trans (Bool.eq_false_iff.mpr valid)), stands⟩

/-- Behind its end the iterator stays as it is. -/
theorem nexts_ended (ended : queue.members merge.heap = []) (invalid : merge.valid = false) (count : Nat) :
    merge.nexts count = some merge := by
  induction count with
  | zero => rfl
  | succ count ih =>
    have step : merge.next = some merge := by
      simp only [next, advanceToWinner]
      cases pop : queue.pop merge.heap with
      | none =>
        obtain ⟨sources, heap, error, current, valid⟩ := merge
        simp only at invalid
        rw [invalid]
      | some pair =>
        have perm := queue.pop_perm pop
        rw [ended] at perm
        cases perm.nil_eq
    rw [nexts, step, Option.bind_eq_bind, Option.bind_some, ih]

theorem contentsAt_range (sources : List Source) :
    (List.range sources.length).map (contentsAt sources) = sources.map Source.contents := by
  apply List.ext_getElem?
  intro place
  by_cases inside : place < sources.length
  · simp [contentsAt, inside]
  · simp [inside]

/-- What a source holds behind the position at which it fails. -/
def lost (source : Source) : List Entry :=
  match source.failsAt with
  | none => []
  | some (position, _) => source.entries.drop position

theorem contents_lost (source : Source) : source.contents.rest ++ lost source = source.entries := by
  unfold Source.contents lost
  cases source.failsAt with
  | none => simp
  | some failing => simp

theorem contents_failure {source : Source} : source.contents.failure ≠ none ↔ source.failsAt ≠ none := by
  unfold Source.contents
  cases source.failsAt <;> simp

/-- What a source delivers and what it loses keep the source's order. -/
theorem contents_ascending {source : Source} (ascending : Assoc.Ascending source.entries) :
    Assoc.Ascending source.contents.rest ∧ ∀ earlier ∈ source.contents.rest, ∀ entry ∈ lost source, earlier.1 < entry.1 := by
  rw [← contents_lost] at ascending
  have parts := List.pairwise_append.mp ascending
  exact ⟨parts.1, parts.2.2⟩

theorem mem_delivered_or_lost {sources : List Source} {entry : Entry} :
    entry ∈ MergeIterator.delivered (sources.map Source.contents) ∨ entry ∈ sources.flatMap lost ↔
      entry ∈ sources.flatMap Source.entries := by
  simp only [MergeIterator.delivered, List.flatMap_map, List.mem_flatMap, ← contents_lost, List.mem_append]
  constructor
  · rintro (⟨source, present, inside⟩ | ⟨source, present, inside⟩)
    · exact ⟨source, present, .inl inside⟩
    · exact ⟨source, present, .inr inside⟩
  · rintro ⟨source, present, inside | inside⟩
    · exact .inl ⟨source, present, inside⟩
    · exact .inr ⟨source, present, inside⟩

/-- What failing sources lose lies behind them on the heap. -/
theorem lost_liesBehind {sources : List Source} {heap : List HeapEntry}
    (ascending : ∀ source ∈ sources, Assoc.Ascending source.entries)
    (held : ∀ cursor ∈ sources.map Source.contents, cursor.failure ≠ none →
      ∃ source ∈ heap, source.failure ≠ none ∧ source.entries = cursor.rest) :
    MergeIterator.LiesBehind heap (sources.flatMap lost) := by
  intro entry member
  obtain ⟨source, present, hidden⟩ := List.mem_flatMap.mp member
  have broken : source.contents.failure ≠ none := by
    rw [contents_failure]
    intro sound
    simp [lost, sound] at hidden
  obtain ⟨pushed, there, bad, shape⟩ := held source.contents (List.mem_map.mpr ⟨source, present, rfl⟩) broken
  refine ⟨pushed, there, bad, ?_⟩
  rw [shape]
  exact fun earlier before => (contents_ascending (ascending source present)).2 earlier before entry hidden

/-- All sources are sought: the merge over values has pushed all of them. -/
theorem seekSources_all (merge : PointerMerge queue) : ∃ sought,
    seekSources (List.range merge.sources.length) { merge with
      heap := queue.empty, error := none, valid := false, current := (merge.current.1, ⟨[], false, 0⟩) } = some sought ∧
    Stands sought (MergeIterator.pushSources (merge.sources.map Source.contents)
      ⟨[], none, (merge.current.1, ⟨[], false, 0⟩), false⟩) := by
  have start : Stands { merge with
      heap := queue.empty, error := none, valid := false, current := (merge.current.1, ⟨[], false, 0⟩) }
      ⟨[], none, (merge.current.1, ⟨[], false, 0⟩), false⟩ := by
    refine ⟨rfl, rfl, rfl, ?_, ?_, ?_⟩ <;> simp [queue.members_empty]
  obtain ⟨sought, run, kept⟩ := seekSources_stands start rfl (List.nodup_range (n := merge.sources.length))
    (fun place member => List.mem_range.mp member) (by simp [queue.members_empty])
  rw [contentsAt_range] at kept
  exact ⟨sought, run, kept⟩

/-- A scan, seen as one over values. -/
theorem scan_stands (merge : PointerMerge queue) (ascending : ∀ source ∈ merge.sources, Assoc.Ascending source.entries) :
    ∃ output last values, merge.scan = some (output, last) ∧ Stands last values ∧
      values.valid = false ∧ values.heap = [] ∧
      (values.error.isSome ↔ ∃ source ∈ merge.sources, source.failsAt ≠ none) ∧
      ((∀ source ∈ merge.sources, source.failsAt = none) → Merged (merge.sources.flatMap Source.entries) output) ∧
      ∃ whole, Merged (merge.sources.flatMap Source.entries) whole ∧ output <+: whole := by
  obtain ⟨sought, run, kept⟩ := seekSources_all merge
  have fails : MergeIterator.SomeFails (merge.sources.map Source.contents) ↔
      ∃ source ∈ merge.sources, source.failsAt ≠ none := by
    simp only [MergeIterator.SomeFails, List.mem_map, exists_exists_and_eq_and, contents_failure]
  have front : ∀ source ∈ merge.sources.map Source.contents, Assoc.Ascending source.rest := by
    intro cursor member
    obtain ⟨source, held, same⟩ := List.mem_map.mp member
    rw [← same]
    exact (contents_ascending (ascending source held)).1
  rcases MergeIterator.pushSources_spec ⟨[], none, (merge.current.1, ⟨[], false, 0⟩), false⟩ rfl
    (fun source member => absurd member (by simp)) front with
    ⟨stopped, failing⟩ | ⟨heap, pushed, sorted, _, entries, failing⟩
  · have failed : sought.error.isSome := kept.error ▸ stopped.failed
    have invalid : sought.valid = false := kept.valid ▸ stopped.invalid
    have scanned : merge.scan = some ([], sought) := by
      rw [scan, seekToFirst, run]
      simp [failed, drain, invalid]
    refine ⟨[], sought, _, scanned, kept, stopped.invalid, stopped.emptied, ?_, ?_, ?_⟩
    · exact ⟨fun _ => fails.mp failing, fun _ => stopped.failed⟩
    · intro healthy
      obtain ⟨source, member, bad⟩ := fails.mp failing
      exact absurd (healthy source member) bad
    · obtain ⟨whole, merged⟩ := MergeIterator.exists_merged (merge.sources.flatMap Source.entries)
      exact ⟨whole, merged, List.nil_prefix⟩
  · have pushedError : (MergeIterator.pushSources (merge.sources.map Source.contents)
        ⟨[], none, (merge.current.1, ⟨[], false, 0⟩), false⟩).error = none := by rw [pushed]
    have held := (MergeIterator.pushSources_holds _ pushedError).2
    rw [pushed] at kept held
    obtain ⟨first, presented, step, advances, shown⟩ := advanceToWinner_stands kept
    obtain ⟨output, last, values, drained, drains, final⟩ := drain_stands (first.load + 1) shown
      (.inl (by rw [shown.load_eq]; omega))
    have healthy : sought.error.isSome = false := by rw [← kept.error]; rfl
    have scanned : merge.scan = some (output, last) := by
      rw [scan, seekToFirst, run]
      simp [healthy, step, drained]
    have same : MergeIterator.Failing heap ↔ ∃ source ∈ merge.sources, source.failsAt ≠ none := by
      rw [failing, fails]
      simp [MergeIterator.Failing]
    obtain ⟨clean, stops⟩ := drains.spec advances sorted rfl
    have all : ∀ entry, entry ∈ MergeIterator.entriesOf heap ++ merge.sources.flatMap lost ↔
        entry ∈ merge.sources.flatMap Source.entries := by
      intro entry
      have pushedEntries : entry ∈ MergeIterator.entriesOf heap ↔
          entry ∈ MergeIterator.delivered (merge.sources.map Source.contents) :=
        (entries entry).trans (or_iff_right List.not_mem_nil)
      rw [List.mem_append, pushedEntries, mem_delivered_or_lost]
    obtain ⟨whole, merged, begins⟩ := drains.front advances sorted (lost_liesBehind ascending held)
    refine ⟨output, last, values, scanned, final, drains.ended, ?_, ?_, ?_, whole, merged.congr all, begins⟩
    · by_cases broken : MergeIterator.Failing heap
      · exact (stops broken).emptied
      · exact (clean broken).2.2
    · rw [← same]
      constructor
      · intro failed
        by_contra sound
        exact Option.isSome_iff_ne_none.mp failed (clean sound).2.1
      · exact fun broken => (stops broken).failed
    · intro sound
      have none : ¬ MergeIterator.Failing heap := by
        rw [same]
        rintro ⟨source, present, bad⟩
        exact bad (sound source present)
      refine (clean none).1.congr ?_
      intro entry
      rw [← all entry, List.mem_append]
      refine ⟨.inl, ?_⟩
      rintro (inside | hidden)
      · exact inside
      · obtain ⟨source, present, inside⟩ := List.mem_flatMap.mp hidden
        simp [lost, sound source present] at inside

/-- The merge of any sources with ascending keys, each of which may fail anywhere.
It calls no source that is not valid. Without failures it delivers each key once,
in order, with an entry of the highest sequence; a failure leaves the front of that
and an error that stays. -/
theorem merge_correct (merge : PointerMerge queue)
    (ascending : ∀ source ∈ merge.sources, Assoc.Ascending source.entries) :
    ∃ output last, merge.scan = some (output, last) ∧ last.valid = false ∧
      ((∀ source ∈ merge.sources, source.failsAt = none) →
        Merged (merge.sources.flatMap Source.entries) output ∧ last.status = .ok ()) ∧
      ((∃ source ∈ merge.sources, source.failsAt ≠ none) →
        (∃ whole, Merged (merge.sources.flatMap Source.entries) whole ∧ output <+: whole) ∧
          ∃ error, last.status = .error error) ∧
      ∀ count, ∃ final, last.nexts count = some final ∧ final.valid = false ∧ final.status = last.status := by
  obtain ⟨output, last, values, scanned, stands, invalid, emptied, failed, merged, front⟩ := scan_stands merge ascending
  have ended : queue.members last.heap = [] := by
    have heap := stands.heap
    rw [emptied] at heap
    exact List.map_eq_nil_iff.mp heap.nil_eq.symm
  rw [stands.valid] at invalid
  rw [stands.error] at failed
  refine ⟨output, last, scanned, invalid, ?_, ?_, ?_⟩
  · intro sound
    refine ⟨merged sound, ?_⟩
    cases error : last.error with
    | none => rw [status, error]
    | some error =>
      obtain ⟨source, present, bad⟩ := failed.mp (by rw [error]; rfl)
      exact absurd (sound source present) bad
  · intro broken
    obtain ⟨error, found⟩ := Option.isSome_iff_exists.mp (failed.mpr broken)
    exact ⟨front, error, by rw [status, found]⟩
  · intro count
    exact ⟨last, nexts_ended ended invalid count, invalid, rfl⟩

end

/-- A queue of the kind that the merge uses. -/
def heapQueue : PriorityQueue HeapPointer.below :=
  .sorted
    (by
      intro left right
      simp only [HeapPointer.below, HeapEntry.not_below_iff]
      rcases lt_trichotomy left.arranged.1 right.arranged.1 with less | same | more
      · exact .inl ⟨less.le, fun same => absurd same (ne_of_lt less)⟩
      · rcases le_total right.arranged.2.sequence left.arranged.2.sequence with older | newer
        · exact .inl ⟨same.le, fun _ => older⟩
        · exact .inr ⟨same.ge, fun _ => newer⟩
      · exact .inr ⟨more.le, fun same => absurd same (ne_of_lt more)⟩)
    (by
      intro first second third early late
      simp only [HeapPointer.below, HeapEntry.not_below_iff] at early late ⊢
      refine ⟨early.1.trans late.1, ?_⟩
      intro same
      have middle : first.arranged.1 = second.arranged.1 := le_antisymm early.1 (same ▸ late.1)
      exact (late.2 (middle.symm.trans same)).trans (early.2 middle))

/-- Two versions of a key in two sources, and a third source that fails behind its
first entry. -/
def failingMerge : PointerMerge heapQueue where
  sources := [⟨[([1], ⟨[10], false, 1⟩)], none, [], none⟩, ⟨[([1], ⟨[20], false, 2⟩)], none, [], none⟩,
    ⟨[([2], ⟨[30], false, 3⟩), ([3], ⟨[40], false, 4⟩)], some (1, ⟨.readErr, "Input/output error"⟩), [], none⟩]
  heap := heapQueue.empty
  error := none
  current := ([], ⟨[], false, 0⟩)
  valid := false

theorem merge_correct_failing_source :
    ∃ output last, failingMerge.scan = some (output, last) ∧ ∃ error, last.status = .error error := by
  obtain ⟨output, last, scanned, _, _, failed, _⟩ := merge_correct failingMerge (by decide +kernel)
  refine ⟨output, last, scanned, (failed ?_).2⟩
  exact ⟨_, List.mem_of_getElem? (i := 2) rfl, by simp⟩

end PointerMerge

end Enigma
