import Enigma.Compaction.MergeIterator

/-! The merge delivers a prefix of a newest-wins merge of its sources, the whole
of it when no source fails, and reports an error exactly when one does. Which of
several equal sources a priority queue hands out is left open: what is proved holds
of every run that takes some source that gives way to no other. -/

namespace Enigma

namespace HeapEntry

/-- The left source may be taken before the right one. -/
theorem not_below_iff {left right : HeapEntry} :
    left.below right = false ↔ left.head.1 ≤ right.head.1 ∧
      (left.head.1 = right.head.1 → right.head.2.sequence ≤ left.head.2.sequence) := by
  unfold below
  split_ifs with less more
  · simpa [less.le] using fun same => absurd same (ne_of_lt less)
  · simpa using fun low => absurd low (not_le.mpr more)
  · have same : left.head.1 = right.head.1 := le_antisymm (not_lt.mp more) (not_lt.mp less)
    simp [same]

end HeapEntry

/-- A source is taken off the heap that gives way to no other. -/
structure PopsTop (heap : List HeapEntry) (top : HeapEntry) (rest : List HeapEntry) : Prop where
  perm : heap.Perm (top :: rest)
  highest : ∀ other ∈ rest, top.below other = false

theorem PopsTop.ne_nil {heap rest : List HeapEntry} {top : HeapEntry} (pops : PopsTop heap top rest) : heap ≠ [] := by
  intro empty
  have perm := pops.perm
  rw [empty] at perm
  cases perm.nil_eq

/-- The popped source and the rest make up the heap, and it gives way to none. -/
theorem popTop_spec {heap rest : List HeapEntry} {top : HeapEntry} (popped : popTop heap = some (top, rest)) :
    PopsTop heap top rest := by
  induction heap generalizing top rest with
  | nil => simp [popTop] at popped
  | cons source others ih =>
    simp only [popTop] at popped
    cases inner : popTop others with
    | none =>
      simp only [inner, Option.some.injEq, Prod.mk.injEq] at popped
      obtain ⟨rfl, rfl⟩ := popped
      have empty : others = [] := by
        cases others with
        | nil => rfl
        | cons second tail =>
          simp only [popTop] at inner
          split at inner
          · cases inner
          · split at inner <;> cases inner
      exact ⟨by simp [empty], by simp⟩
    | some pair =>
      obtain ⟨best, remaining⟩ := pair
      obtain ⟨perm, highest⟩ := ih inner
      simp only [inner] at popped
      split_ifs at popped with lower
      · simp only [Option.some.injEq, Prod.mk.injEq] at popped
        obtain ⟨rfl, rfl⟩ := popped
        refine ⟨(perm.cons source).trans (List.Perm.swap _ _ _), ?_⟩
        intro other member
        rcases List.mem_cons.mp member with here | later
        · subst here
          apply HeapEntry.not_below_iff.mpr
          unfold HeapEntry.below at lower
          split_ifs at lower with less more
          · exact ⟨more.le, fun same => absurd same (ne_of_lt more)⟩
          · exact ⟨not_lt.mp less, fun _ => (of_decide_eq_true lower).le⟩
        · exact highest other later
      · simp only [Option.some.injEq, Prod.mk.injEq] at popped
        obtain ⟨rfl, rfl⟩ := popped
        refine ⟨List.Perm.refl _, ?_⟩
        intro other member
        have first := HeapEntry.not_below_iff.mp (Bool.eq_false_iff.mpr lower)
        rcases List.mem_cons.mp (perm.mem_iff.mp member) with here | later
        · exact here ▸ HeapEntry.not_below_iff.mpr first
        · have second := HeapEntry.not_below_iff.mp (highest other later)
          apply HeapEntry.not_below_iff.mpr
          refine ⟨first.1.trans second.1, ?_⟩
          intro same
          have middle : source.head.1 = best.head.1 := le_antisymm first.1 (same ▸ second.1)
          exact (second.2 (middle.symm.trans same)).trans (first.2 middle)

theorem popTop_eq_none {heap : List HeapEntry} : popTop heap = none ↔ heap = [] := by
  cases heap with
  | nil => simp [popTop]
  | cons source others =>
    simp only [popTop, reduceCtorEq, iff_false]
    split
    · simp
    · split <;> simp

namespace MergeIterator

/-- The deduplication loop, with any choice among equals. -/
inductive DropsDuplicates : MergeIterator → MergeIterator → Prop where
  | emptied {merge : MergeIterator} (empty : merge.heap = []) : DropsDuplicates merge merge
  | different {merge : MergeIterator} {top : HeapEntry} {rest : List HeapEntry} (pops : PopsTop merge.heap top rest)
      (other : top.head.1 ≠ merge.current.1) : DropsDuplicates merge merge
  | duplicate {merge after : MergeIterator} {top : HeapEntry} {rest : List HeapEntry} (pops : PopsTop merge.heap top rest)
      (same : top.head.1 = merge.current.1)
      (later : DropsDuplicates ({ merge with heap := rest }.advanceAndRepush top) after) : DropsDuplicates merge after

/-- One step of the iterator. -/
inductive AdvancesToWinner : MergeIterator → MergeIterator → Prop where
  | ended {merge : MergeIterator} (empty : merge.heap = []) : AdvancesToWinner merge { merge with valid := false }
  | winner {merge after : MergeIterator} {top : HeapEntry} {rest : List HeapEntry} (pops : PopsTop merge.heap top rest)
      (drops : DropsDuplicates
        ({ merge with valid := true, current := top.head, heap := rest }.advanceAndRepush top) after) :
      AdvancesToWinner merge after

/-- What is delivered while the iterator is valid, and where that ends. -/
inductive Drains : MergeIterator → List Entry → MergeIterator → Prop where
  | invalid {merge : MergeIterator} (ended : merge.valid = false) : Drains merge [] merge
  | deliver {merge after last : MergeIterator} {later : List Entry} (valid : merge.valid = true)
      (step : AdvancesToWinner merge after) (rest : Drains after later last) :
      Drains merge (merge.current :: later) last

def entriesOf (heap : List HeapEntry) : List Entry := heap.flatMap HeapEntry.entries

def Failing (heap : List HeapEntry) : Prop := ∃ source ∈ heap, source.failure ≠ none

def Sorted (heap : List HeapEntry) : Prop := ∀ source ∈ heap, Assoc.Ascending source.entries

theorem mem_entriesOf {heap : List HeapEntry} {entry : Entry} :
    entry ∈ entriesOf heap ↔ ∃ source ∈ heap, entry ∈ source.entries := List.mem_flatMap

theorem weight_perm {first second : List HeapEntry} (perm : first.Perm second) : weight first = weight second :=
  (perm.map _).sum_nat

theorem head_le {source : HeapEntry} (ascending : Assoc.Ascending source.entries) {entry : Entry}
    (member : entry ∈ source.entries) : source.head.1 ≤ entry.1 := by
  rcases List.mem_cons.mp member with here | later
  · exact le_of_eq (congrArg Prod.fst here.symm)
  · exact ((List.pairwise_cons.mp ascending).1 entry later).le

/-- How a source leaves the heap when it is advanced: it comes back one entry
shorter, it is gone because it ran out, or its failure stops the merge. -/
theorem advanceAndRepush_cases (merge : MergeIterator) (source : HeapEntry) :
    (∃ entry tail, source.tail = entry :: tail ∧
        merge.advanceAndRepush source = { merge with heap := ⟨entry, tail, source.failure⟩ :: merge.heap }) ∨
      (source.tail = [] ∧ source.failure = none ∧ merge.advanceAndRepush source = merge) ∨
      (∃ error, source.tail = [] ∧ source.failure = some error ∧
        merge.advanceAndRepush source = merge.setError error) := by
  cases tail : source.tail with
  | cons entry rest => exact .inl ⟨entry, rest, rfl, by simp [advanceAndRepush, tail]⟩
  | nil =>
    cases failure : source.failure with
    | none => exact .inr (.inl ⟨rfl, rfl, by simp [advanceAndRepush, tail, failure]⟩)
    | some error => exact .inr (.inr ⟨error, rfl, rfl, by simp [advanceAndRepush, tail, failure]⟩)

/-- The merge has stopped on the failure of some source. -/
structure Stopped (merge : MergeIterator) : Prop where
  failed : merge.error.isSome
  invalid : merge.valid = false
  emptied : merge.heap = []

/-- A source whose failure is still to come has kept some of its entries. -/
def KeepsFailing (before after : List HeapEntry) : Prop :=
  ∀ source ∈ before, source.failure ≠ none →
    ∃ later ∈ after, later.failure ≠ none ∧ ∀ entry ∈ later.entries, entry ∈ source.entries

/-- The heap after one source has moved past its entry of a key. -/
structure Moved (key : Key) (before after : List HeapEntry) : Prop where
  sorted : Sorted after
  others : ∀ entry, entry.1 ≠ key → (entry ∈ entriesOf after ↔ entry ∈ entriesOf before)
  within : ∀ entry ∈ entriesOf after, entry ∈ entriesOf before
  failing : Failing after → Failing before
  keeps : KeepsFailing before after

/-- The heap after every source has moved past a key. -/
structure Passed (key : Key) (before after : List HeapEntry) : Prop where
  sorted : Sorted after
  entries : ∀ entry, entry ∈ entriesOf after ↔ entry ∈ entriesOf before ∧ entry.1 ≠ key
  failing : Failing after → Failing before
  keeps : KeepsFailing before after

theorem KeepsFailing.refl (heap : List HeapEntry) : KeepsFailing heap heap :=
  fun source member fails => ⟨source, member, fails, fun _ held => held⟩

theorem KeepsFailing.trans {first second third : List HeapEntry} (early : KeepsFailing first second)
    (late : KeepsFailing second third) : KeepsFailing first third := by
  intro source member fails
  obtain ⟨between, held, still, inside⟩ := early source member fails
  obtain ⟨later, present, last, within⟩ := late between held still
  exact ⟨later, present, last, fun entry kept => inside entry (within entry kept)⟩

theorem Passed.failing_iff {key : Key} {before after : List HeapEntry} (passed : Passed key before after) :
    Failing after ↔ Failing before := by
  refine ⟨passed.failing, ?_⟩
  rintro ⟨source, member, fails⟩
  obtain ⟨later, held, still, _⟩ := passed.keeps source member fails
  exact ⟨later, held, still⟩

theorem Moved.passed {key : Key} {first second third : List HeapEntry} (moved : Moved key first second)
    (passed : Passed key second third) : Passed key first third where
  sorted := passed.sorted
  entries := fun entry => by
    rw [passed.entries]
    constructor
    · exact fun both => ⟨(moved.others entry both.2).mp both.1, both.2⟩
    · exact fun both => ⟨(moved.others entry both.2).mpr both.1, both.2⟩
  failing := fun fails => moved.failing (passed.failing fails)
  keeps := moved.keeps.trans passed.keeps

/-- The source at the top is advanced: its failure stops the merge, or it has moved. -/
theorem advanceAndRepush_moved (merge : MergeIterator) {top : HeapEntry} {whole : List HeapEntry}
    (pops : PopsTop whole top merge.heap) (sorted : Sorted whole) :
    ((merge.advanceAndRepush top).Stopped ∧ Failing whole) ∨
      ∃ heap, merge.advanceAndRepush top = { merge with heap := heap } ∧ Moved top.head.1 whole heap := by
  have within : ∀ source, source ∈ whole ↔ source = top ∨ source ∈ merge.heap := by
    intro source
    rw [pops.perm.mem_iff, List.mem_cons]
  have topSorted : Assoc.Ascending top.entries := sorted top ((within top).mpr (.inl rfl))
  rcases advanceAndRepush_cases merge top with
    ⟨entry, tail, shape, step⟩ | ⟨shape, clean, step⟩ | ⟨error, shape, failure, step⟩
  · right
    refine ⟨_, step, ?_, ?_, ?_, ?_, ?_⟩
    · intro source member
      rcases List.mem_cons.mp member with here | later
      · subst here
        have order := (List.pairwise_cons.mp topSorted).2
        rw [shape] at order
        exact order
      · exact sorted source ((within source).mpr (.inr later))
    · intro probe different
      simp only [mem_entriesOf, within, List.mem_cons, exists_eq_or_imp, HeapEntry.entries, shape]
      have notHead : probe ≠ top.head := fun same => different (congrArg Prod.fst same)
      simp [notHead]
    · intro probe member
      simp only [mem_entriesOf, within, List.mem_cons, exists_eq_or_imp, HeapEntry.entries, shape] at member ⊢
      rcases member with here | later
      · exact .inl (.inr here)
      · exact .inr later
    · simp only [Failing, within, List.mem_cons, exists_eq_or_imp]
      exact fun fails => fails
    · intro source member fails
      rcases (within source).mp member with here | other
      · subst here
        refine ⟨⟨entry, tail, source.failure⟩, by simp, fails, ?_⟩
        intro probe held
        rw [HeapEntry.entries, shape]
        exact List.mem_cons_of_mem _ held
      · exact ⟨source, by simp [other], fails, fun _ held => held⟩
  · right
    refine ⟨merge.heap, step, ?_, ?_, ?_, ?_, ?_⟩
    · exact fun source member => sorted source ((within source).mpr (.inr member))
    · intro probe different
      simp only [mem_entriesOf, within, exists_eq_or_imp, HeapEntry.entries, shape, List.mem_singleton]
      have notHead : probe ≠ top.head := fun same => different (congrArg Prod.fst same)
      simp [notHead]
    · intro probe member
      obtain ⟨source, held, present⟩ := mem_entriesOf.mp member
      exact mem_entriesOf.mpr ⟨source, (within source).mpr (.inr held), present⟩
    · rintro ⟨source, held, fails⟩
      exact ⟨source, (within source).mpr (.inr held), fails⟩
    · intro source member fails
      rcases (within source).mp member with here | other
      · exact absurd (here ▸ clean) fails
      · exact ⟨source, other, fails, fun _ held => held⟩
  · left
    refine ⟨?_, top, (within top).mpr (.inl rfl), by simp [failure]⟩
    rw [step]
    exact ⟨rfl, rfl, rfl⟩

/-- The newest entry of the smallest key stands at the top of the heap. -/
theorem PopsTop.wins {heap rest : List HeapEntry} {top : HeapEntry} (pops : PopsTop heap top rest) (sorted : Sorted heap) :
    top.head ∈ entriesOf heap ∧ (∀ entry ∈ entriesOf heap, top.head.1 ≤ entry.1) ∧
      ∀ entry ∈ entriesOf heap, entry.1 = top.head.1 → entry.2.sequence ≤ top.head.2.sequence := by
  have first : ∀ source ∈ heap, top.head.1 ≤ source.head.1 ∧
      (top.head.1 = source.head.1 → source.head.2.sequence ≤ top.head.2.sequence) := by
    intro source held
    rcases List.mem_cons.mp (pops.perm.mem_iff.mp held) with here | later
    · subst here
      exact ⟨le_rfl, fun _ => le_rfl⟩
    · exact HeapEntry.not_below_iff.mp (pops.highest source later)
  refine ⟨mem_entriesOf.mpr ⟨top, pops.perm.mem_iff.mpr (by simp), by simp [HeapEntry.entries]⟩, ?_, ?_⟩
  · intro entry member
    obtain ⟨source, held, present⟩ := mem_entriesOf.mp member
    exact (first source held).1.trans (head_le (sorted source held) present)
  · intro entry member same
    obtain ⟨source, held, present⟩ := mem_entriesOf.mp member
    rcases List.mem_cons.mp present with here | later
    · subst here
      exact (first source held).2 same.symm
    · -- a later entry of a source has a larger key than the top
      have larger := (List.pairwise_cons.mp (sorted source held)).1 entry later
      exact absurd same (ne_of_gt (lt_of_le_of_lt (first source held).1 larger))

theorem DropsDuplicates.of_emptied {merge after : MergeIterator} (drops : DropsDuplicates merge after)
    (empty : merge.heap = []) : after = merge := by
  cases drops with
  | emptied => rfl
  | different => rfl
  | duplicate pops => exact absurd empty pops.ne_nil

/-- The deduplication loop moves every source past the current key. -/
theorem DropsDuplicates.passed {merge after : MergeIterator} (drops : DropsDuplicates merge after)
    (sorted : Sorted merge.heap) (least : ∀ entry ∈ entriesOf merge.heap, merge.current.1 ≤ entry.1) :
    (after.Stopped ∧ Failing merge.heap) ∨
      ∃ heap, after = { merge with heap := heap } ∧ Passed merge.current.1 merge.heap heap := by
  induction drops with
  | @emptied merge empty =>
    right
    refine ⟨merge.heap, rfl, sorted, ?_, fun fails => fails, .refl _⟩
    simp [empty, entriesOf]
  | @different merge top rest pops other =>
    -- the smallest current key is larger, so no entry of that key is left
    right
    refine ⟨merge.heap, rfl, sorted, ?_, fun fails => fails, .refl _⟩
    intro entry
    refine ⟨fun member => ⟨member, ?_⟩, fun both => both.1⟩
    obtain ⟨topIn, topFirst, _⟩ := PopsTop.wins pops sorted
    have strictly : merge.current.1 < top.head.1 := lt_of_le_of_ne (least _ topIn) (Ne.symm other)
    exact ne_of_gt (lt_of_lt_of_le strictly (topFirst entry member))
  | @duplicate merge after top rest pops same later ih =>
    rcases advanceAndRepush_moved { merge with heap := rest } pops sorted with ⟨stopped, failing⟩ | ⟨heap, step, moved⟩
    · -- the failed source emptied the heap, so the loop ends at once
      left
      rw [later.of_emptied stopped.emptied]
      exact ⟨stopped, failing⟩
    · rw [step] at ih
      have lower : ∀ entry ∈ entriesOf heap, merge.current.1 ≤ entry.1 :=
        fun entry member => least entry (moved.within entry member)
      rw [same] at moved
      rcases ih moved.sorted lower with ⟨stopped, failed⟩ | ⟨final, ends, passed⟩
      · exact .inl ⟨stopped, moved.failing failed⟩
      · exact .inr ⟨final, ends, moved.passed passed⟩

/-- The iterator presents the newest entry of the smallest key and leaves every
source past that key. -/
structure Presents (merge after : MergeIterator) (winner : Entry) (heap : List HeapEntry) : Prop where
  state : after = { merge with valid := true, current := winner, heap := heap }
  member : winner ∈ entriesOf merge.heap
  least : ∀ entry ∈ entriesOf merge.heap, winner.1 ≤ entry.1
  newest : ∀ entry ∈ entriesOf merge.heap, entry.1 = winner.1 → entry.2.sequence ≤ winner.2.sequence
  passed : Passed winner.1 merge.heap heap

/-- One step of the iterator: it has come to its end, it stops on a failure, or it
presents an entry. -/
theorem AdvancesToWinner.spec {merge after : MergeIterator} (advances : AdvancesToWinner merge after)
    (sorted : Sorted merge.heap) : (merge.heap = [] ∧ after = { merge with valid := false }) ∨
      (after.Stopped ∧ Failing merge.heap) ∨ ∃ winner heap, Presents merge after winner heap := by
  cases advances with
  | ended empty => exact .inl ⟨empty, rfl⟩
  | @winner _ top rest pops drops =>
    right
    obtain ⟨member, least, newest⟩ := PopsTop.wins pops sorted
    rcases advanceAndRepush_moved { merge with valid := true, current := top.head, heap := rest } pops sorted with
      ⟨stopped, failing⟩ | ⟨heap, step, moved⟩
    · rw [drops.of_emptied stopped.emptied]
      exact .inl ⟨stopped, failing⟩
    · rw [step] at drops
      have lower : ∀ entry ∈ entriesOf heap, top.head.1 ≤ entry.1 :=
        fun entry held => least entry (moved.within entry held)
      rcases drops.passed moved.sorted lower with ⟨stopped, failed⟩ | ⟨final, ends, passed⟩
      · exact .inl ⟨stopped, moved.failing failed⟩
      · exact .inr ⟨top.head, final, ends, member, least, newest, moved.passed passed⟩

theorem AdvancesToWinner.presents {merge after : MergeIterator} (advances : AdvancesToWinner merge after)
    (sorted : Sorted merge.heap) (valid : after.valid = true) : ∃ winner heap, Presents merge after winner heap := by
  rcases advances.spec sorted with ⟨empty, same⟩ | ⟨stopped, failing⟩ | presents
  · rw [same] at valid
    cases valid
  · rw [stopped.invalid] at valid
    cases valid
  · exact presents

/-- A run from a heap without failing sources delivers a newest-wins merge and ends
clean; with a failing source it stops. -/
theorem Drains.spec {merge first last : MergeIterator} {output : List Entry} (drains : Drains first output last)
    (advances : AdvancesToWinner merge first) (sorted : Sorted merge.heap) (clean : merge.error = none) :
    (¬ Failing merge.heap → Merged (entriesOf merge.heap) output ∧ last.error = none ∧ last.heap = []) ∧
      (Failing merge.heap → last.Stopped) := by
  induction drains generalizing merge with
  | @invalid first ended =>
    rcases advances.spec sorted with ⟨empty, same⟩ | ⟨stopped, failing⟩ | ⟨winner, heap, presents⟩
    · subst same
      simp [empty, entriesOf, Merged.nil, clean, Failing]
    · exact ⟨fun healthy => absurd failing healthy, fun _ => stopped⟩
    · rw [presents.state] at ended
      cases ended
  | @deliver first after last later valid step rest ih =>
    obtain ⟨winner, heap, presents⟩ := advances.presents sorted valid
    have state := presents.state
    subst state
    obtain ⟨healthy, failed⟩ := ih step presents.passed.sorted clean
    refine ⟨?_, fun failing => failed (presents.passed.failing_iff.mpr failing)⟩
    intro none
    obtain ⟨merged, ok⟩ := healthy (fun failing => none (presents.passed.failing failing))
    exact ⟨Merged.cons merged presents.member presents.least presents.newest presents.passed.entries, ok⟩

theorem Drains.ended {merge last : MergeIterator} {output : List Entry} (drains : Drains merge output last) :
    last.valid = false := by
  induction drains with
  | invalid ended => exact ended
  | deliver _ _ _ ih => exact ih

theorem weight_eq_zero {heap : List HeapEntry} : weight heap = 0 ↔ heap = [] := by
  cases heap with
  | nil => simp [weight]
  | cons source others => simp [weight, HeapEntry.entries]

theorem weight_advanceAndRepush (merge : MergeIterator) {top : HeapEntry} {whole : List HeapEntry}
    (pops : PopsTop whole top merge.heap) : weight (merge.advanceAndRepush top).heap < weight whole := by
  have heavy : weight whole = top.entries.length + weight merge.heap := by
    rw [weight_perm pops.perm]
    simp [weight]
  rw [heavy, HeapEntry.entries]
  rcases advanceAndRepush_cases merge top with
    ⟨entry, tail, shape, step⟩ | ⟨shape, clean, step⟩ | ⟨error, shape, failure, step⟩
  · simp [step, shape, weight, HeapEntry.entries]
  · simp [step, shape]
  · have emptied : weight (merge.setError error).heap = 0 := rfl
    rw [step, emptied]
    exact Nat.add_pos_left (Nat.succ_pos _) _

theorem DropsDuplicates.weight_le {merge after : MergeIterator} (drops : DropsDuplicates merge after) :
    weight after.heap ≤ weight merge.heap := by
  induction drops with
  | emptied => exact le_rfl
  | different => exact le_rfl
  | @duplicate merge after top rest pops same later ih =>
    exact ih.trans (weight_advanceAndRepush { merge with heap := rest } pops).le

/-- A step that does not end the run makes the heap lighter. -/
theorem AdvancesToWinner.lighter {merge after : MergeIterator} (advances : AdvancesToWinner merge after) :
    after.valid = false ∨ weight after.heap < weight merge.heap := by
  cases advances with
  | ended empty => exact .inl rfl
  | @winner _ top rest pops drops =>
    have lighter := weight_advanceAndRepush { merge with valid := true, current := top.head, heap := rest } pops
    exact .inr (lt_of_le_of_lt drops.weight_le lighter)

/-- With a step for each entry on the heap the loop comes to its end. -/
theorem dropDuplicates_drops (fuel : Nat) (merge : MergeIterator) (enough : weight merge.heap ≤ fuel) :
    DropsDuplicates merge (dropDuplicates fuel merge) := by
  induction fuel generalizing merge with
  | zero => exact .emptied (weight_eq_zero.mp (Nat.le_zero.mp enough))
  | succ fuel ih =>
    simp only [dropDuplicates]
    cases popped : popTop merge.heap with
    | none => exact .emptied (popTop_eq_none.mp popped)
    | some pair =>
      obtain ⟨top, rest⟩ := pair
      have pops := popTop_spec popped
      have lighter := weight_advanceAndRepush { merge with heap := rest } pops
      simp only
      split_ifs with same
      · exact .duplicate pops same (ih ({ merge with heap := rest }.advanceAndRepush top) (by omega))
      · exact .different pops same

theorem advanceToWinner_advances (merge : MergeIterator) : AdvancesToWinner merge merge.advanceToWinner := by
  simp only [advanceToWinner]
  cases popped : popTop merge.heap with
  | none => exact .ended (popTop_eq_none.mp popped)
  | some pair =>
    obtain ⟨top, rest⟩ := pair
    exact .winner (popTop_spec popped) (dropDuplicates_drops _ _ le_rfl)

/-- With a step for each entry on the heap, and one more, the run comes to its end. -/
theorem drain_drains (fuel : Nat) (merge : MergeIterator) (enough : weight merge.heap < fuel ∨ merge.valid = false) :
    Drains merge (drain fuel merge).1 (drain fuel merge).2 := by
  induction fuel generalizing merge with
  | zero =>
    rcases enough with less | ended
    · omega
    · exact .invalid ended
  | succ fuel ih =>
    simp only [drain]
    split_ifs with valid
    · have advances := advanceToWinner_advances merge
      refine .deliver valid advances (ih merge.next ?_)
      rcases advances.lighter with ended | lighter
      · exact .inr ended
      · rcases enough with less | ended
        · exact .inl (by rw [next]; omega)
        · rw [ended] at valid
          cases valid
    · exact .invalid (Bool.eq_false_iff.mpr valid)

/-- All entries the sources deliver. -/
def delivered (sources : List Cursor) : List Entry := sources.flatMap Cursor.rest

/-- Some source stops with an error, at whatever position. -/
def SomeFails (sources : List Cursor) : Prop := ∃ source ∈ sources, source.failure ≠ none

theorem pushSources_spec {sources : List Cursor} (merge : MergeIterator) (clean : merge.error = none)
    (sorted : Sorted merge.heap) (ascending : ∀ source ∈ sources, Assoc.Ascending source.rest) :
    ((pushSources sources merge).Stopped ∧ SomeFails sources) ∨
      ∃ heap, pushSources sources merge = { merge with heap := heap } ∧ Sorted heap ∧
        weight heap = weight merge.heap + (sources.map fun source => source.rest.length).sum ∧
        (∀ entry, entry ∈ entriesOf heap ↔ entry ∈ entriesOf merge.heap ∨ entry ∈ delivered sources) ∧
        (Failing heap ↔ Failing merge.heap ∨ SomeFails sources) := by
  induction sources generalizing merge with
  | nil => exact .inr ⟨merge.heap, rfl, sorted, by simp, by simp [delivered], by simp [SomeFails]⟩
  | cons source others ih =>
    obtain ⟨entries, failure⟩ := source
    have others_ascending : ∀ source ∈ others, Assoc.Ascending source.rest :=
      fun source member => ascending source (by simp [member])
    cases entries with
    | nil =>
      cases failure with
      | some error => exact .inl ⟨⟨rfl, rfl, rfl⟩, ⟨⟨[], some error⟩, by simp, by simp⟩⟩
      | none =>
        rcases ih merge clean sorted others_ascending with ⟨stopped, fails⟩ | ⟨heap, step, rest⟩
        · left
          obtain ⟨source, member, failing⟩ := fails
          exact ⟨stopped, source, by simp [member], failing⟩
        · right
          exact ⟨heap, step, by simpa [delivered, SomeFails] using rest⟩
    | cons entry tail =>
      have pushedSorted : Sorted (⟨entry, tail, failure⟩ :: merge.heap) := by
        intro source member
        rcases List.mem_cons.mp member with here | later
        · subst here
          exact ascending ⟨entry :: tail, failure⟩ (by simp)
        · exact sorted source later
      rcases ih { merge with heap := ⟨entry, tail, failure⟩ :: merge.heap } clean pushedSorted
          others_ascending with ⟨stopped, fails⟩ | ⟨heap, step, heapSorted, heavy, entries, failing⟩
      · left
        obtain ⟨source, member, failing⟩ := fails
        exact ⟨stopped, source, by simp [member], failing⟩
      · right
        refine ⟨heap, step, heapSorted, ?_, ?_, ?_⟩
        · rw [heavy]
          simp only [weight, List.map_cons, List.sum_cons, HeapEntry.entries, List.length_cons]
          omega
        · intro probe
          rw [entries probe]
          simp only [entriesOf, delivered, List.flatMap_cons, List.mem_append, HeapEntry.entries]
          tauto
        · rw [failing]
          simp only [Failing, SomeFails, List.mem_cons, exists_eq_or_imp]
          exact or_assoc.trans or_left_comm

/-- Unless a source fails at once, all that are to fail later are on the heap. -/
theorem pushSources_holds {sources : List Cursor} (merge : MergeIterator)
    (ok : (pushSources sources merge).error = none) :
    (∀ source ∈ merge.heap, source ∈ (pushSources sources merge).heap) ∧
      ∀ cursor ∈ sources, cursor.failure ≠ none →
        ∃ source ∈ (pushSources sources merge).heap, source.failure ≠ none ∧ source.entries = cursor.rest := by
  induction sources generalizing merge with
  | nil => exact ⟨fun _ member => member, by simp⟩
  | cons source others ih =>
    obtain ⟨entries, failure⟩ := source
    cases entries with
    | nil =>
      cases failure with
      | some error => cases ok
      | none =>
        obtain ⟨kept, held⟩ := ih merge ok
        refine ⟨kept, ?_⟩
        intro cursor member fails
        rcases List.mem_cons.mp member with here | later
        · exact absurd (congrArg Cursor.failure here) fails
        · exact held cursor later fails
    | cons entry tail =>
      obtain ⟨kept, held⟩ := ih { merge with heap := ⟨entry, tail, failure⟩ :: merge.heap } ok
      refine ⟨fun source member => kept source (by simp [member]), ?_⟩
      intro cursor member fails
      rcases List.mem_cons.mp member with here | later
      · subst here
        exact ⟨⟨entry, tail, failure⟩, kept _ (by simp), fails, rfl⟩
      · exact held cursor later fails

/-- The scan of ascending sources: complete when none fails, and an error is
reported exactly when one does. -/
theorem scan_spec {sources : List Cursor} (ascending : ∀ source ∈ sources, Assoc.Ascending source.rest) :
    (¬ SomeFails sources → Merged (delivered sources) (scan sources).1) ∧
      ((scan sources).2.error.isSome ↔ SomeFails sources) := by
  have start := pushSources_spec ⟨[], none, ([], ⟨[], false, 0⟩), false⟩ rfl
    (fun source member => absurd member (by simp)) ascending
  simp only [scan, seekToFirst]
  rcases start with ⟨stopped, fails⟩ | ⟨heap, step, sorted, heavy, entries, failing⟩
  · simp [stopped.failed, drain, stopped.invalid, fails]
  · rw [step]
    have advances := advanceToWinner_advances ⟨heap, none, ([], ⟨[], false, 0⟩), false⟩
    have drains := drain_drains ((sources.map fun source => source.rest.length).sum + 1)
      (advanceToWinner ⟨heap, none, ([], ⟨[], false, 0⟩), false⟩) (by
        simp only [weight, List.map_nil, List.sum_nil] at heavy
        rcases advances.lighter with ended | lighter
        · exact .inr ended
        · left
          simp only [weight] at lighter ⊢
          omega)
    have run := drains.spec advances sorted rfl
    have same : Failing heap ↔ SomeFails sources := by
      rw [failing]
      simp [Failing]
    rw [same] at run
    refine ⟨?_, ?_, fun fails => (run.2 fails).failed⟩
    · intro healthy
      refine (run.1 healthy).1.congr ?_
      intro entry
      simpa [entriesOf] using entries entry
    · intro failed
      by_contra healthy
      exact Option.isSome_iff_ne_none.mp failed (run.1 healthy).2.1

/-- Any entries have a merge: that of as many sources. -/
theorem exists_merged (entries : List Entry) : ∃ output, Merged entries output := by
  have single : ∀ source ∈ entries.map fun entry => (⟨[entry], none⟩ : Cursor), Assoc.Ascending source.rest := by
    intro source member
    obtain ⟨entry, _, same⟩ := List.mem_map.mp member
    subst same
    exact List.pairwise_singleton _ _
  have healthy : ¬ SomeFails (entries.map fun entry => (⟨[entry], none⟩ : Cursor)) := by
    simp [SomeFails]
  have whole : delivered (entries.map fun entry => (⟨[entry], none⟩ : Cursor)) = entries := by
    rw [delivered, List.flatMap_map]
    exact List.flatMap_singleton' entries
  have merged := (scan_spec single).1 healthy
  rw [whole] at merged
  exact ⟨_, merged⟩

/-- Entries that lie behind the failures of sources on the heap. -/
def LiesBehind (heap : List HeapEntry) (lost : List Entry) : Prop :=
  ∀ entry ∈ lost, ∃ source ∈ heap, source.failure ≠ none ∧ ∀ earlier ∈ source.entries, earlier.1 < entry.1

/-- What a run delivers is the front of a merge of all entries, of those too that
lie behind a failure. -/
theorem Drains.front {merge first last : MergeIterator} {output lost : List Entry} (drains : Drains first output last)
    (advances : AdvancesToWinner merge first) (sorted : Sorted merge.heap) (behind : LiesBehind merge.heap lost) :
    ∃ whole, Merged (entriesOf merge.heap ++ lost) whole ∧ output <+: whole := by
  induction drains generalizing merge with
  | invalid ended =>
    obtain ⟨whole, merged⟩ := exists_merged (entriesOf merge.heap ++ lost)
    exact ⟨whole, merged, List.nil_prefix⟩
  | @deliver first after last later valid step rest ih =>
    obtain ⟨winner, heap, presents⟩ := advances.presents sorted valid
    have state := presents.state
    subst state
    have stillBehind : LiesBehind heap lost := by
      intro entry member
      obtain ⟨source, held, fails, smaller⟩ := behind entry member
      obtain ⟨left, present, still, inside⟩ := presents.passed.keeps source held fails
      exact ⟨left, present, still, fun earlier kept => smaller earlier (inside earlier kept)⟩
    have larger : ∀ entry ∈ lost, winner.1 < entry.1 := by
      intro entry member
      obtain ⟨source, held, _, smaller⟩ := behind entry member
      have first : source.head ∈ source.entries := by simp [HeapEntry.entries]
      exact lt_of_le_of_lt (presents.least _ (mem_entriesOf.mpr ⟨source, held, first⟩)) (smaller _ first)
    obtain ⟨whole, merged, front⟩ := ih step presents.passed.sorted stillBehind
    refine ⟨winner :: whole, ?_, List.cons_prefix_cons.mpr ⟨rfl, front⟩⟩
    refine Merged.cons merged (List.mem_append_left _ presents.member) ?_ ?_ ?_
    · intro entry member
      rcases List.mem_append.mp member with held | hidden
      · exact presents.least entry held
      · exact (larger entry hidden).le
    · intro entry member same
      rcases List.mem_append.mp member with held | hidden
      · exact presents.newest entry held same
      · exact absurd same (ne_of_gt (larger entry hidden))
    · intro entry
      have other : entry ∈ lost → entry.1 ≠ winner.1 := fun hidden => ne_of_gt (larger entry hidden)
      simp only [List.mem_append, presents.passed.entries]
      constructor
      · rintro (⟨held, different⟩ | hidden)
        · exact ⟨.inl held, different⟩
        · exact ⟨.inr hidden, other hidden⟩
      · rintro ⟨held | hidden, different⟩
        · exact .inl ⟨held, different⟩
        · exact .inr hidden

end MergeIterator

end Enigma
