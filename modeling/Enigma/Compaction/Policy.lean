import Enigma.Storage.Types
import Mathlib.Data.Rat.Defs
import Mathlib.Algebra.Order.Ring.Rat

/-! Which tables a compaction takes, and whether it may drop tombstones. Bucket
averages are exact rationals; the code keeps them as doubles. -/

namespace Enigma

structure CompactionCandidate where
  inputs : List SSTableId
  canDropTombstone : Bool
  deriving DecidableEq, Repr

structure CompactionPolicy where
  pick : List SSTableMeta → Option CompactionCandidate
  name : String

/-- `live` must be sorted. True when the inputs are exactly the oldest live tables. -/
def canDropTombstones (live inputs : List SSTableId) : Bool :=
  if inputs.length = 0 ∨ live.length < inputs.length then false
  else (live.zip (inputs.insertionSort (· ≤ ·))).all fun (oldest, input) => oldest = input

def fullCompactionPolicy : CompactionPolicy where
  pick live := if live.length = 0 then none else some ⟨live.map SSTableMeta.id, true⟩
  name := "full_compaction_policy"

namespace SizeTiered

structure Bucket where
  oldest : SSTableId
  average : ℚ
  metas : List SSTableMeta

/-- The bucketing loop's variables: the closed buckets, the current one, and
the sum of the sizes in it. -/
structure Bucketing where
  closed : List Bucket
  current : Bucket
  sum : ℚ

def Bucketing.start (first : SSTableMeta) : Bucketing :=
  ⟨[], ⟨first.id, first.sizeBytes, [first]⟩, first.sizeBytes⟩

def Bucketing.file (bucketLow bucketHigh : ℚ) (state : Bucketing) (table : SSTableMeta) : Bucketing :=
  let size : ℚ := table.sizeBytes
  if bucketLow * state.current.average ≤ size ∧ size ≤ bucketHigh * state.current.average then
    let sum := state.sum + size
    let metas := state.current.metas ++ [table]
    { state with
      current := ⟨if table.id < state.current.oldest then table.id else state.current.oldest,
        sum / metas.length, metas⟩
      sum := sum }
  else
    { closed := state.closed ++ [state.current]
      current := ⟨table.id, size, [table]⟩
      sum := size }

def Bucketing.buckets (state : Bucketing) : List Bucket := state.closed ++ [state.current]

def formBuckets (bucketLow bucketHigh : ℚ) (live : List SSTableMeta) : List Bucket :=
  match live.insertionSort (fun left right => left.sizeBytes ≤ right.sizeBytes) with
  | [] => []
  | first :: rest => (rest.foldl (Bucketing.file bucketLow bucketHigh) (.start first)).buckets

/-- `max_size` of a vector of ids, which have eight bytes each. -/
def maxSize : Nat := (2 ^ 63 - 1) / 8

/-- What `reserve` throws where it is asked for more: `std::length_error`. -/
def lengthError : Error := ⟨.unexpectedErr, "vector::reserve"⟩

def pick (minMergeWidth maxMergeWidth : Nat) (bucketLow bucketHigh : ℚ) (live : List SSTableMeta) :
    Except Error (Option CompactionCandidate) :=
  if live.length = 0 then .ok none
  else
    let found := (formBuckets bucketLow bucketHigh live).filter fun bucket => minMergeWidth ≤ bucket.metas.length
    match found.insertionSort (fun left right => left.oldest ≤ right.oldest) with
    | [] => .ok none
    | chosen :: _ =>
      -- room is made for the width, however few tables there are
      if maxSize < maxMergeWidth then .error lengthError
      else
        let ordered := chosen.metas.insertionSort (fun left right => left.id ≤ right.id)
        -- the loop pushes an id before it tests the width
        let inputs := (ordered.map SSTableMeta.id).take (max 1 maxMergeWidth)
        let liveInputs := (live.map SSTableMeta.id).insertionSort (· ≤ ·)
        .ok (some ⟨inputs, canDropTombstones liveInputs inputs⟩)

end SizeTiered

/-- The code's defaults for the bucket bounds are 0.5 and 1.5. An engine under a
policy that throws does what it does when nothing is picked, and then the exception
goes on to its caller; that last part is left out here. -/
def sizeTieredCompactionPolicy (minMergeWidth maxMergeWidth : Nat) (bucketLow bucketHigh : ℚ) :
    CompactionPolicy where
  pick live := (SizeTiered.pick minMergeWidth maxMergeWidth bucketLow bucketHigh live).toOption.join
  name := "size_tiered_compaction_policy"

theorem sizeTiered_pick_iff {minMergeWidth maxMergeWidth : Nat} {bucketLow bucketHigh : ℚ} {live : List SSTableMeta}
    {candidate : CompactionCandidate} :
    (sizeTieredCompactionPolicy minMergeWidth maxMergeWidth bucketLow bucketHigh).pick live = some candidate ↔
      SizeTiered.pick minMergeWidth maxMergeWidth bucketLow bucketHigh live = .ok (some candidate) := by
  simp only [sizeTieredCompactionPolicy]
  cases SizeTiered.pick minMergeWidth maxMergeWidth bucketLow bucketHigh live <;> simp [Except.toOption]

/-- With room for the width nothing is thrown, and the policy picks what `pick` returns. -/
theorem sizeTiered_pick_eq {minMergeWidth maxMergeWidth : Nat} (room : maxMergeWidth ≤ SizeTiered.maxSize)
    (bucketLow bucketHigh : ℚ) (live : List SSTableMeta) :
    SizeTiered.pick minMergeWidth maxMergeWidth bucketLow bucketHigh live =
      .ok ((sizeTieredCompactionPolicy minMergeWidth maxMergeWidth bucketLow bucketHigh).pick live) := by
  have returns : ∃ found, SizeTiered.pick minMergeWidth maxMergeWidth bucketLow bucketHigh live = .ok found := by
    simp only [SizeTiered.pick, not_lt.mpr room, ↓reduceIte]
    split
    · exact ⟨_, rfl⟩
    · split <;> exact ⟨_, rfl⟩
  obtain ⟨found, picked⟩ := returns
  simp [sizeTieredCompactionPolicy, picked, Except.toOption]

/-- Dropping is allowed only for a prefix of the sorted live ids. -/
theorem canDropTombstones_prefix {live inputs : List SSTableId} (drop : canDropTombstones live inputs = true) :
    inputs ≠ [] ∧ inputs.insertionSort (· ≤ ·) <+: live := by
  simp only [canDropTombstones] at drop
  split_ifs at drop with guarded
  have nonempty : inputs ≠ [] := by
    intro empty
    simp [empty] at guarded
  refine ⟨nonempty, ?_⟩
  have long : (inputs.insertionSort (· ≤ ·)).length ≤ live.length := by
    rw [List.length_insertionSort]
    omega
  have equal := List.all_eq_true.mp drop
  apply List.prefix_iff_eq_take.mpr
  apply List.ext_getElem (by simpa using long)
  intro index left right
  have member := equal (live[index], (inputs.insertionSort (· ≤ ·))[index])
    (List.mem_iff_getElem.mpr ⟨index, by rw [List.length_zip]; omega, by simp⟩)
  simpa using (of_decide_eq_true member).symm

/-- When dropping is allowed, every live table left out is newer by id than
every input. -/
theorem canDropTombstones_older {live inputs : List SSTableId}
    (drop : canDropTombstones (live.insertionSort (· ≤ ·)) inputs = true) :
    ∀ other ∈ live, other ∉ inputs → ∀ input ∈ inputs, input < other := by
  obtain ⟨_, rest, split⟩ := canDropTombstones_prefix drop
  have sorted : (live.insertionSort (· ≤ ·)).Pairwise (· ≤ ·) := List.pairwise_insertionSort _ _
  rw [← split] at sorted
  intro other member outside input inside
  have late : other ∈ rest := by
    have present : other ∈ live.insertionSort (· ≤ ·) := (List.mem_insertionSort _).mpr member
    rw [← split] at present
    rcases List.mem_append.mp present with early | late
    · exact absurd ((List.mem_insertionSort _).mp early) outside
    · exact late
  have ordered := (List.pairwise_append.mp sorted).2.2 input ((List.mem_insertionSort _).mpr inside) other late
  have different : input ≠ other := by
    intro same
    exact outside (same ▸ inside)
  exact lt_of_le_of_ne ordered different

namespace SizeTiered

private theorem file_metas (bucketLow bucketHigh : ℚ) (state : Bucketing) (table : SSTableMeta)
    {bucket : Bucket} (member : bucket ∈ (state.file bucketLow bucketHigh table).buckets)
    {row : SSTableMeta} (held : row ∈ bucket.metas) :
    row = table ∨ ∃ earlier ∈ state.buckets, row ∈ earlier.metas := by
  simp only [Bucketing.file] at member
  split at member
  · rcases List.mem_append.mp member with closed | current
    · exact .inr ⟨bucket, List.mem_append_left _ closed, held⟩
    · simp only [List.mem_singleton] at current
      subst current
      rcases List.mem_append.mp held with early | new
      · exact .inr ⟨state.current, by simp [Bucketing.buckets], early⟩
      · exact .inl (by simpa using new)
  · rcases List.mem_append.mp member with closed | current
    · exact .inr ⟨bucket, closed, held⟩
    · simp only [List.mem_singleton] at current
      subst current
      exact .inl (by simpa using held)

theorem formBuckets_metas {bucketLow bucketHigh : ℚ} {live : List SSTableMeta} {bucket : Bucket}
    (member : bucket ∈ formBuckets bucketLow bucketHigh live) {row : SSTableMeta} (held : row ∈ bucket.metas) :
    row ∈ live := by
  have general : ∀ (rest : List SSTableMeta) (state : Bucketing),
      ∀ bucket ∈ (rest.foldl (Bucketing.file bucketLow bucketHigh) state).buckets, ∀ row ∈ bucket.metas,
        row ∈ rest ∨ ∃ earlier ∈ state.buckets, row ∈ earlier.metas := by
    intro rest
    induction rest with
    | nil => exact fun state bucket member row held => .inr ⟨bucket, member, held⟩
    | cons table rest ih =>
      intro state bucket member row held
      rcases ih _ bucket member row held with later | ⟨earlier, present, kept⟩
      · exact .inl (List.mem_cons_of_mem _ later)
      · rcases file_metas bucketLow bucketHigh state table present kept with here | before
        · exact .inl (by simp [here])
        · exact .inr before
  simp only [formBuckets] at member
  split at member
  · simp at member
  · rename_i first rest sorted
    have inSorted : row ∈ first :: rest := by
      rcases general rest (.start first) bucket member row held with later | ⟨earlier, present, kept⟩
      · exact List.mem_cons_of_mem _ later
      · simp only [Bucketing.start, Bucketing.buckets, List.nil_append, List.mem_singleton] at present
        subst present
        simpa using Or.inl kept
    rw [← sorted] at inSorted
    exact (List.mem_insertionSort _).mp inSorted

private theorem file_filled (bucketLow bucketHigh : ℚ) (state : Bucketing) (table : SSTableMeta)
    (filled : ∀ bucket ∈ state.buckets, bucket.metas ≠ []) :
    ∀ bucket ∈ (state.file bucketLow bucketHigh table).buckets, bucket.metas ≠ [] := by
  intro bucket member
  simp only [Bucketing.file] at member
  split at member
  · rcases List.mem_append.mp member with closed | current
    · exact filled bucket (List.mem_append_left _ closed)
    · rw [List.mem_singleton.mp current]
      simp
  · rcases List.mem_append.mp member with closed | current
    · exact filled bucket closed
    · rw [List.mem_singleton.mp current]
      simp

theorem formBuckets_filled {bucketLow bucketHigh : ℚ} {live : List SSTableMeta} :
    ∀ bucket ∈ formBuckets bucketLow bucketHigh live, bucket.metas ≠ [] := by
  have general : ∀ (rest : List SSTableMeta) (state : Bucketing), (∀ bucket ∈ state.buckets, bucket.metas ≠ []) →
      ∀ bucket ∈ (rest.foldl (Bucketing.file bucketLow bucketHigh) state).buckets, bucket.metas ≠ [] := by
    intro rest
    induction rest with
    | nil => exact fun _ filled => filled
    | cons table rest ih => exact fun state filled => ih _ (file_filled bucketLow bucketHigh state table filled)
  rw [formBuckets]
  split
  · simp
  · rename_i first rest _
    exact general rest _ (by simp [Bucketing.start, Bucketing.buckets])

/-- A candidate is made of a bucket that was formed. -/
theorem pick_returned {minMergeWidth maxMergeWidth : Nat} {bucketLow bucketHigh : ℚ} {live : List SSTableMeta}
    {candidate : CompactionCandidate}
    (picked : pick minMergeWidth maxMergeWidth bucketLow bucketHigh live = .ok (some candidate)) :
    ∃ chosen ∈ formBuckets bucketLow bucketHigh live,
      candidate.inputs = ((chosen.metas.insertionSort fun left right => left.id ≤ right.id).map SSTableMeta.id).take
        (max 1 maxMergeWidth) ∧
      candidate.canDropTombstone =
        canDropTombstones ((live.map SSTableMeta.id).insertionSort (· ≤ ·)) candidate.inputs := by
  simp only [pick] at picked
  split at picked
  · cases picked
  · split at picked
    · cases picked
    · rename_i chosen others sorted
      split at picked
      · cases picked
      · cases picked
        have eligible : chosen ∈ chosen :: others := by simp
        rw [← sorted] at eligible
        exact ⟨chosen, (List.mem_filter.mp ((List.mem_insertionSort _).mp eligible)).1, rfl, rfl⟩

theorem pick_ne_nil {minMergeWidth maxMergeWidth : Nat} {bucketLow bucketHigh : ℚ} {live : List SSTableMeta}
    {candidate : CompactionCandidate}
    (picked : pick minMergeWidth maxMergeWidth bucketLow bucketHigh live = .ok (some candidate)) :
    candidate.inputs ≠ [] := by
  obtain ⟨chosen, formed, inputs, _⟩ := pick_returned picked
  have filled := formBuckets_filled chosen formed
  intro empty
  rcases List.take_eq_nil_iff.mp (inputs.symm.trans empty) with none | nothing
  · omega
  · have none := List.length_eq_zero_iff.mpr nothing
    rw [List.length_map, List.length_insertionSort] at none
    exact filled (List.length_eq_zero_iff.mp none)

/-- Every input is live, and the flag is the prefix test on the live ids. -/
theorem pick_spec {minMergeWidth maxMergeWidth : Nat} {bucketLow bucketHigh : ℚ} {live : List SSTableMeta}
    {candidate : CompactionCandidate}
    (picked : pick minMergeWidth maxMergeWidth bucketLow bucketHigh live = .ok (some candidate)) :
    (∀ id ∈ candidate.inputs, id ∈ live.map SSTableMeta.id) ∧
      candidate.canDropTombstone =
        canDropTombstones ((live.map SSTableMeta.id).insertionSort (· ≤ ·)) candidate.inputs := by
  obtain ⟨chosen, formed, inputs, drops⟩ := pick_returned picked
  refine ⟨?_, drops⟩
  intro id member
  rw [inputs] at member
  obtain ⟨row, held, same⟩ := List.mem_map.mp (List.mem_of_mem_take member)
  exact List.mem_map.mpr ⟨row, formBuckets_metas formed ((List.mem_insertionSort _).mp held), same⟩

end SizeTiered

end Enigma
