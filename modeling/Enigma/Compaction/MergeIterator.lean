import Enigma.Storage.Types

/-! The k-way merge that compaction reads its inputs through. A source is known
to the merge by the entries it still delivers and the error it stops with. A
source on the heap is valid by construction: it has a current entry. -/

namespace Enigma

/-- What an iterator delivers from its first entry on: entries in order, then
its end, with the error it ends with if it does not run out cleanly. -/
structure Cursor where
  rest : List Entry
  failure : Option Error
  deriving DecidableEq

structure HeapEntry where
  head : Entry
  tail : List Entry
  failure : Option Error

namespace HeapEntry

def entries (source : HeapEntry) : List Entry := source.head :: source.tail

/-- `HeapCompare`: the left source gives way to the right one. -/
def below (left right : HeapEntry) : Bool :=
  if left.head.1 < right.head.1 then false
  else if right.head.1 < left.head.1 then true
  else left.head.2.sequence < right.head.2.sequence

end HeapEntry

/-- Take a source that gives way to no other. The order among sources with equal
key and sequence is unspecified in the code and plays no role below. -/
def popTop : List HeapEntry → Option (HeapEntry × List HeapEntry)
  | [] => none
  | source :: others =>
    match popTop others with
    | none => some (source, [])
    | some (top, rest) => if source.below top then some (top, source :: rest) else some (source, others)

structure MergeIterator where
  heap : List HeapEntry
  error : Option Error
  current : Entry
  valid : Bool

namespace MergeIterator

def weight (heap : List HeapEntry) : Nat := (heap.map fun source => source.entries.length).sum

def setError (merge : MergeIterator) (error : Error) : MergeIterator :=
  { merge with error := some error, valid := false, heap := [] }

def advanceAndRepush (merge : MergeIterator) (source : HeapEntry) : MergeIterator :=
  match source.tail, source.failure with
  | entry :: tail, failure => { merge with heap := ⟨entry, tail, failure⟩ :: merge.heap }
  | [], some error => merge.setError error
  | [], none => merge

/-- The deduplication loop, bounded by the number of entries on the heap. -/
def dropDuplicates : Nat → MergeIterator → MergeIterator
  | 0, merge => merge
  | fuel + 1, merge =>
    match popTop merge.heap with
    | none => merge
    | some (top, rest) =>
      if top.head.1 = merge.current.1 then
        dropDuplicates fuel ({ merge with heap := rest }.advanceAndRepush top)
      else merge

def advanceToWinner (merge : MergeIterator) : MergeIterator :=
  match popTop merge.heap with
  | none => { merge with valid := false }
  | some (top, rest) =>
    let advanced := { merge with valid := true, current := top.head, heap := rest }.advanceAndRepush top
    dropDuplicates (weight advanced.heap) advanced

def next (merge : MergeIterator) : MergeIterator := merge.advanceToWinner

def pushSources : List Cursor → MergeIterator → MergeIterator
  | [], merge => merge
  | source :: others, merge =>
    match source.rest, source.failure with
    | entry :: tail, failure => pushSources others { merge with heap := ⟨entry, tail, failure⟩ :: merge.heap }
    | [], some error => merge.setError error
    | [], none => pushSources others merge

def seekToFirst (sources : List Cursor) : MergeIterator :=
  let pushed := pushSources sources ⟨[], none, ([], ⟨[], false, 0⟩), false⟩
  if pushed.error.isSome then pushed else pushed.advanceToWinner

/-- Deliver entries while the iterator is valid. -/
def drain : Nat → MergeIterator → List Entry × MergeIterator
  | 0, merge => ([], merge)
  | fuel + 1, merge =>
    if merge.valid then
      let (later, last) := drain fuel merge.next
      (merge.current :: later, last)
    else ([], merge)

/-- The whole scan: `seek_to_first`, then `next` while valid. -/
def scan (sources : List Cursor) : List Entry × MergeIterator :=
  drain ((sources.map fun source => source.rest.length).sum + 1) (seekToFirst sources)

end MergeIterator

/-- `output` lists each key of `entries` once, in ascending order, with an entry
of the highest sequence that the key has in `entries`. -/
structure Merged (entries output : List Entry) : Prop where
  ascending : Assoc.Ascending output
  newest : ∀ entry ∈ output, entry ∈ entries ∧
    ∀ other ∈ entries, other.1 = entry.1 → other.2.sequence ≤ entry.2.sequence
  covers : ∀ entry ∈ entries, ∃ kept ∈ output, kept.1 = entry.1

theorem Merged.nil : Merged [] [] := ⟨List.Pairwise.nil, by simp, by simp⟩

theorem Merged.congr {first second output : List Entry} (merged : Merged first output)
    (same : ∀ entry, entry ∈ first ↔ entry ∈ second) : Merged second output where
  ascending := merged.ascending
  newest := fun entry member =>
    ⟨(same entry).mp (merged.newest entry member).1,
      fun other held => (merged.newest entry member).2 other ((same other).mpr held)⟩
  covers := fun entry member => merged.covers entry ((same entry).mpr member)

/-- The winner of the smallest key goes in front of the merge of the rest. -/
theorem Merged.cons {entries later output : List Entry} {winner : Entry} (merged : Merged later output)
    (member : winner ∈ entries) (least : ∀ entry ∈ entries, winner.1 ≤ entry.1)
    (wins : ∀ entry ∈ entries, entry.1 = winner.1 → entry.2.sequence ≤ winner.2.sequence)
    (others : ∀ entry, entry ∈ later ↔ entry ∈ entries ∧ entry.1 ≠ winner.1) :
    Merged entries (winner :: output) where
  ascending := by
    refine List.pairwise_cons.mpr ⟨?_, merged.ascending⟩
    intro entry kept
    have held := (others entry).mp (merged.newest entry kept).1
    exact lt_of_le_of_ne (least entry held.1) (Ne.symm held.2)
  newest := by
    intro entry kept
    rcases List.mem_cons.mp kept with here | kept
    · subst here
      exact ⟨member, fun other held same => wins other held same⟩
    · obtain ⟨held, highest⟩ := merged.newest entry kept
      have split := (others entry).mp held
      refine ⟨split.1, ?_⟩
      intro other present same
      exact highest other ((others other).mpr ⟨present, same ▸ split.2⟩) same
  covers := by
    intro entry held
    by_cases same : entry.1 = winner.1
    · exact ⟨winner, by simp, same.symm⟩
    · obtain ⟨kept, present, equal⟩ := merged.covers entry ((others entry).mpr ⟨held, same⟩)
      exact ⟨kept, List.mem_cons_of_mem _ present, equal⟩

end Enigma
