import Enigma.Foundation.GreedyRuns
import Enigma.Foundation.TiedSort
import Enigma.Compaction.Policy
import Mathlib.Tactic.Linarith
import Mathlib.Tactic.FieldSimp
import Mathlib.Data.List.Pairwise

/-! What the size-tiered policy picks. A bucket is a run of tables in the order of
their sizes, each within a band around the average of those before it. The buckets
do not depend on the order of tables of one size. -/

namespace Enigma

namespace SizeTiered

open GreedyRuns TiedSort

/-- The buckets of tables that stand in the order of their sizes. -/
def bucketsOf (bucketLow bucketHigh : ℚ) : List SSTableMeta → List Bucket
  | [] => []
  | first :: rest => (rest.foldl (Bucketing.file bucketLow bucketHigh) (.start first)).buckets

theorem formBuckets_eq (bucketLow bucketHigh : ℚ) (live : List SSTableMeta) :
    formBuckets bucketLow bucketHigh live =
      bucketsOf bucketLow bucketHigh (live.insertionSort fun left right => left.sizeBytes ≤ right.sizeBytes) := rfl

/-- The loop, with its start as a step. -/
def Bucketing.next (bucketLow bucketHigh : ℚ) : Option Bucketing → SSTableMeta → Option Bucketing
  | none, table => some (.start table)
  | some state, table => some (state.file bucketLow bucketHigh table)

def Bucketing.all : Option Bucketing → List Bucket
  | none => []
  | some state => state.buckets

theorem bucketsOf_next (bucketLow bucketHigh : ℚ) (sizes : List SSTableMeta) :
    bucketsOf bucketLow bucketHigh sizes = Bucketing.all (sizes.foldl (Bucketing.next bucketLow bucketHigh) none) := by
  have general : ∀ (rest : List SSTableMeta) (state : Bucketing),
      rest.foldl (Bucketing.next bucketLow bucketHigh) (some state) =
        some (rest.foldl (Bucketing.file bucketLow bucketHigh) state) := by
    intro rest
    induction rest with
    | nil => exact fun _ => rfl
    | cons table later ih => exact fun state => ih _
  cases sizes with
  | nil => rfl
  | cons first rest => exact (congrArg Bucketing.all (general rest (.start first))).symm

/-- Buckets with the same tables, whatever their order. -/
structure SameBucket (left right : Bucket) : Prop where
  oldest : left.oldest = right.oldest
  average : left.average = right.average
  metas : left.metas.Perm right.metas

structure SameState (left right : Bucketing) : Prop where
  closed : List.Forall₂ SameBucket left.closed right.closed
  current : SameBucket left.current right.current
  sum : left.sum = right.sum

theorem SameBucket.refl (bucket : Bucket) : SameBucket bucket bucket := ⟨rfl, rfl, .refl _⟩

theorem SameBucket.trans {first second third : Bucket} (left : SameBucket first second) (right : SameBucket second third) :
    SameBucket first third :=
  ⟨left.oldest.trans right.oldest, left.average.trans right.average, left.metas.trans right.metas⟩

theorem sameBuckets_trans {first second third : List Bucket} (left : List.Forall₂ SameBucket first second)
    (right : List.Forall₂ SameBucket second third) : List.Forall₂ SameBucket first third := by
  induction left generalizing third with
  | nil => exact right
  | cons same _ ih =>
    cases right with
    | cons alike later => exact .cons (same.trans alike) (ih later)

theorem sameBuckets_twin {left right : List Bucket} (same : List.Forall₂ SameBucket left right) :
    ∀ bucket ∈ left, ∃ twin ∈ right, SameBucket bucket twin := by
  induction same with
  | nil => simp
  | cons alike _ ih =>
    intro bucket member
    rcases List.mem_cons.mp member with rfl | later
    · exact ⟨_, List.mem_cons_self .., alike⟩
    · obtain ⟨twin, present, matching⟩ := ih bucket later
      exact ⟨twin, List.mem_cons_of_mem _ present, matching⟩

theorem SameState.refl (state : Bucketing) : SameState state state :=
  ⟨List.forall₂_same.mpr fun _ _ => .refl _, .refl _, rfl⟩

theorem SameState.trans {first second third : Bucketing} (left : SameState first second) (right : SameState second third) :
    SameState first third :=
  ⟨sameBuckets_trans left.closed right.closed, left.current.trans right.current, left.sum.trans right.sum⟩

/-- A table is filed by the average alone. -/
theorem SameState.file {left right : Bucketing} (same : SameState left right) (bucketLow bucketHigh : ℚ)
    (table : SSTableMeta) :
    SameState (left.file bucketLow bucketHigh table) (right.file bucketLow bucketHigh table) := by
  have average := same.current.average
  have count : (left.current.metas ++ [table]).length = (right.current.metas ++ [table]).length :=
    (same.current.metas.append_right [table]).length_eq
  by_cases fits : bucketLow * right.current.average ≤ table.sizeBytes ∧ table.sizeBytes ≤ bucketHigh * right.current.average
  · simp only [Bucketing.file, average, fits, and_self, ↓reduceIte]
    refine ⟨same.closed, ⟨?_, ?_, same.current.metas.append_right _⟩, ?_⟩
    · simp only [same.current.oldest]
    · simp only [same.sum, count]
    · simp only [same.sum]
  · simp only [Bucketing.file, average, fits, ↓reduceIte]
    exact ⟨List.rel_append same.closed (.cons same.current .nil), .refl _, rfl⟩

theorem SameState.buckets {left right : Bucketing} (same : SameState left right) :
    List.Forall₂ SameBucket left.buckets right.buckets := List.rel_append same.closed (.cons same.current .nil)

/-- The average is that of some tables, none of them larger than a bound. -/
structure Steady (state : Bucketing) (bound : Nat) : Prop where
  filled : 0 < state.current.metas.length
  average : state.current.average = state.sum / state.current.metas.length
  bounded : state.sum ≤ state.current.metas.length * bound

theorem steady_start (table : SSTableMeta) : Steady (.start table) table.sizeBytes :=
  ⟨by simp [Bucketing.start], by simp [Bucketing.start], by simp [Bucketing.start]⟩

theorem Steady.average_le {state : Bucketing} {bound : Nat} (steady : Steady state bound) :
    state.current.average ≤ bound := by
  have positive : (0 : ℚ) < state.current.metas.length := by exact_mod_cast steady.filled
  rw [steady.average, div_le_iff₀ positive, mul_comm]
  exact steady.bounded

/-- The test whether a table goes into the current bucket. -/
def Bucketing.Takes (bucketLow bucketHigh : ℚ) (state : Bucketing) (table : SSTableMeta) : Prop :=
  bucketLow * state.current.average ≤ table.sizeBytes ∧ table.sizeBytes ≤ bucketHigh * state.current.average

section

variable {bucketLow bucketHigh : ℚ} {state : Bucketing} {bound : Nat} {table : SSTableMeta}

theorem file_takes (takes : state.Takes bucketLow bucketHigh table) : state.file bucketLow bucketHigh table =
    { state with
      current := ⟨if table.id < state.current.oldest then table.id else state.current.oldest,
        (state.sum + table.sizeBytes) / (state.current.metas ++ [table]).length, state.current.metas ++ [table]⟩
      sum := state.sum + table.sizeBytes } := if_pos takes

/-- The state with a new bucket for a table. -/
def Bucketing.opened (closed : List Bucket) (table : SSTableMeta) : Bucketing :=
  ⟨closed, ⟨table.id, table.sizeBytes, [table]⟩, table.sizeBytes⟩

theorem file_opens (refuses : ¬ state.Takes bucketLow bucketHigh table) :
    state.file bucketLow bucketHigh table = .opened state.buckets table := if_neg refuses

theorem Steady.file (steady : Steady state bound) (larger : bound ≤ table.sizeBytes) :
    Steady (state.file bucketLow bucketHigh table) table.sizeBytes := by
  by_cases takes : state.Takes bucketLow bucketHigh table
  · rw [file_takes takes]
    refine ⟨by simp, rfl, ?_⟩
    have bounded := steady.bounded
    have positive : (0 : ℚ) ≤ state.current.metas.length := by positivity
    have larger : (bound : ℚ) ≤ table.sizeBytes := by exact_mod_cast larger
    simp only [List.length_append, List.length_singleton, Nat.cast_add, Nat.cast_one]
    nlinarith
  · rw [file_opens takes]
    exact ⟨by simp [Bucketing.opened], by simp [Bucketing.opened], by simp [Bucketing.opened]⟩

theorem opened_takes {closed : List Bucket} {other : SSTableMeta} (low : bucketLow ≤ 1) (high : 1 ≤ bucketHigh)
    (tied : table.sizeBytes = other.sizeBytes) : (Bucketing.opened closed table).Takes bucketLow bucketHigh other := by
  have size : (0 : ℚ) ≤ other.sizeBytes := by positivity
  rw [Bucketing.Takes, Bucketing.opened, tied]
  exact ⟨by nlinarith, by nlinarith⟩

/-- A bucket that takes a table takes another one of that size, and so does one that
was opened for it. -/
theorem takes_again {other : SSTableMeta} (nonnegative : 0 ≤ bucketLow) (low : bucketLow ≤ 1) (high : 1 ≤ bucketHigh)
    (steady : Steady state bound) (larger : bound ≤ table.sizeBytes) (tied : table.sizeBytes = other.sizeBytes) :
    (state.file bucketLow bucketHigh table).Takes bucketLow bucketHigh other := by
  have filed : Steady (state.file bucketLow bucketHigh table) table.sizeBytes := steady.file larger
  have most := filed.average_le
  have size : (0 : ℚ) ≤ table.sizeBytes := by positivity
  rw [Bucketing.Takes, ← tied]
  by_cases takes : state.Takes bucketLow bucketHigh table
  · have count : (0 : ℚ) < state.current.metas.length := by exact_mod_cast steady.filled
    have before : state.current.average ≤ table.sizeBytes :=
      steady.average_le.trans (by exact_mod_cast larger)
    have grows : state.current.average ≤ (state.file bucketLow bucketHigh table).current.average := by
      rw [steady.average, div_le_iff₀ count] at before
      rw [file_takes takes, steady.average]
      simp only [List.length_append, List.length_singleton, Nat.cast_add, Nat.cast_one]
      rw [div_le_div_iff₀ count (by linarith)]
      nlinarith
    obtain ⟨_, above⟩ := takes
    constructor
    · nlinarith
    · nlinarith
  · rw [file_opens takes, tied]
    exact opened_takes low high tied

theorem oldest_pair (first second : Nat) :
    (if second < first then second else first) = if first < second then first else second := by
  split_ifs <;> omega

theorem perm_two (front : List SSTableMeta) (first second : SSTableMeta) :
    (front ++ [first] ++ [second]).Perm (front ++ [second] ++ [first]) := by
  rw [List.append_assoc, List.append_assoc]
  exact (List.Perm.swap second first []).append_left front

theorem opened_swap {closed : List Bucket} {other : SSTableMeta} (low : bucketLow ≤ 1) (high : 1 ≤ bucketHigh)
    (tied : table.sizeBytes = other.sizeBytes) :
    SameState ((Bucketing.opened closed table).file bucketLow bucketHigh other)
      ((Bucketing.opened closed other).file bucketLow bucketHigh table) := by
  rw [file_takes (opened_takes low high tied), file_takes (opened_takes low high tied.symm)]
  simp only [Bucketing.opened, tied]
  exact ⟨List.forall₂_same.mpr fun _ _ => .refl _, ⟨oldest_pair _ _, rfl, perm_two [] _ _⟩, rfl⟩

theorem oldest_comm (first second start : Nat) :
    (if second < (if first < start then first else start) then second else if first < start then first else start) =
      if first < (if second < start then second else start) then first else if second < start then second else start := by
  split_ifs <;> omega

/-- Two tables of one size end in one bucket, whichever comes first. -/
theorem file_swap {other : SSTableMeta} (nonnegative : 0 ≤ bucketLow) (low : bucketLow ≤ 1) (high : 1 ≤ bucketHigh)
    (steady : Steady state bound) (larger : bound ≤ table.sizeBytes) (tied : table.sizeBytes = other.sizeBytes) :
    SameState ((state.file bucketLow bucketHigh table).file bucketLow bucketHigh other)
      ((state.file bucketLow bucketHigh other).file bucketLow bucketHigh table) := by
  have first : (state.file bucketLow bucketHigh table).Takes bucketLow bucketHigh other :=
    takes_again nonnegative low high steady larger tied
  have second : (state.file bucketLow bucketHigh other).Takes bucketLow bucketHigh table :=
    takes_again nonnegative low high steady (tied ▸ larger) tied.symm
  by_cases takes : state.Takes bucketLow bucketHigh table
  · have otherTakes : state.Takes bucketLow bucketHigh other := by rwa [Bucketing.Takes, ← tied]
    rw [file_takes first, file_takes second, file_takes takes, file_takes otherTakes]
    refine ⟨List.forall₂_same.mpr fun _ _ => .refl _, ⟨oldest_comm _ _ _, ?_, perm_two _ _ _⟩, ?_⟩
    · simp only [(perm_two _ table other).length_eq, tied]
    · simp only [tied]
  · have otherOpens : ¬ state.Takes bucketLow bucketHigh other := by rwa [Bucketing.Takes, ← tied]
    rw [file_opens takes, file_opens otherOpens]
    exact opened_swap low high tied

/-- The loop does not see the order of tables of one size. -/
theorem next_tieBlind (nonnegative : 0 ≤ bucketLow) (low : bucketLow ≤ 1) (high : 1 ≤ bucketHigh) :
    TieBlind SSTableMeta.sizeBytes (Bucketing.next bucketLow bucketHigh) (Option.Rel SameState)
      (fun state bound => ∀ started ∈ state, Steady started bound) where
  refl state := by
    cases state with
    | none => exact .none
    | some state => exact .some (.refl state)
  trans left right := by
    cases left with
    | none => exact right
    | some same =>
      cases right with
      | some alike => exact .some (same.trans alike)
  congr table same := by
    cases same with
    | none => exact .some (.refl _)
    | some alike => exact .some (alike.file bucketLow bucketHigh table)
  advance {state bound table} steady larger := by
    cases state with
    | none => exact fun started found => Option.some.inj found ▸ steady_start table
    | some state => exact fun started found => Option.some.inj found ▸ (steady state rfl).file larger
  swap {state bound table other} steady larger tied := by
    cases state with
    | none => exact .some (opened_swap low high tied)
    | some state => exact .some (file_swap nonnegative low high (steady state rfl) larger tied)

/-- All ways to sort the tables lead to the same buckets. -/
theorem bucketsOf_same {live other sizes otherSizes : List SSTableMeta} (nonnegative : 0 ≤ bucketLow) (low : bucketLow ≤ 1)
    (high : 1 ≤ bucketHigh) (sorts : SortsTo (fun left right => left.sizeBytes ≤ right.sizeBytes) live sizes)
    (otherSorts : SortsTo (fun left right => left.sizeBytes ≤ right.sizeBytes) other otherSizes)
    (same : live.Perm other) :
    List.Forall₂ SameBucket (bucketsOf bucketLow bucketHigh sizes) (bucketsOf bucketLow bucketHigh otherSizes) := by
  have start : ∀ started ∈ (none : Option Bucketing), Steady started 0 := by simp
  have states := (next_tieBlind nonnegative low high).foldl_sorted start (fun _ _ => Nat.zero_le _) sorts.ordered
    otherSorts.ordered ((sorts.perm.trans same).trans otherSorts.perm.symm)
  rw [bucketsOf_next, bucketsOf_next]
  generalize sizes.foldl (Bucketing.next bucketLow bucketHigh) none = state at states ⊢
  generalize otherSizes.foldl (Bucketing.next bucketLow bucketHigh) none = otherState at states ⊢
  cases states with
  | none => exact .nil
  | some alike => exact alike.buckets

end

/-- A bucket and the id of its oldest table. -/
structure Headed (bucket : Bucket) : Prop where
  held : ∃ table ∈ bucket.metas, table.id = bucket.oldest
  least : ∀ table ∈ bucket.metas, bucket.oldest ≤ table.id

/-- The buckets hold the tables that were filed, in their order. -/
structure Filed (state : Bucketing) (tables : List SSTableMeta) : Prop where
  tables : state.buckets.flatMap Bucket.metas = tables
  headed : ∀ bucket ∈ state.buckets, Headed bucket

theorem headed_single (table : SSTableMeta) (average : ℚ) : Headed ⟨table.id, average, [table]⟩ :=
  ⟨⟨table, List.mem_singleton.mpr rfl, rfl⟩, fun _ member => (List.mem_singleton.mp member ▸ le_rfl)⟩

theorem Headed.add {bucket : Bucket} (headed : Headed bucket) (table : SSTableMeta) (average : ℚ) :
    Headed ⟨if table.id < bucket.oldest then table.id else bucket.oldest, average, bucket.metas ++ [table]⟩ := by
  obtain ⟨⟨row, member, oldest⟩, least⟩ := headed
  constructor
  · by_cases older : table.id < bucket.oldest
    · exact ⟨table, List.mem_append_right _ (List.mem_singleton.mpr rfl), by simp [older]⟩
    · exact ⟨row, List.mem_append_left _ member, by simp [older, oldest]⟩
  · intro other present
    simp only
    rcases List.mem_append.mp present with early | new
    · have bound := least other early
      split
      · exact (Nat.le_of_lt ‹_›).trans bound
      · exact bound
    · cases List.mem_singleton.mp new
      split
      · exact le_rfl
      · exact not_lt.mp ‹_›

theorem Filed.file {state : Bucketing} {tables : List SSTableMeta} (filed : Filed state tables) (bucketLow bucketHigh : ℚ)
    (table : SSTableMeta) : Filed (state.file bucketLow bucketHigh table) (tables ++ [table]) := by
  have kept := filed.tables
  rw [Bucketing.buckets, List.flatMap_append, List.flatMap_singleton] at kept
  by_cases takes : state.Takes bucketLow bucketHigh table
  · rw [file_takes takes]
    constructor
    · rw [Bucketing.buckets, List.flatMap_append, List.flatMap_singleton, ← List.append_assoc, kept]
    · intro bucket member
      rcases List.mem_append.mp member with closed | current
      · exact filed.headed bucket (List.mem_append_left _ closed)
      · rw [List.mem_singleton.mp current]
        exact (filed.headed state.current (by simp [Bucketing.buckets])).add table _
  · rw [file_opens takes]
    constructor
    · rw [Bucketing.buckets, List.flatMap_append, List.flatMap_singleton]
      exact congrArg (· ++ [table]) filed.tables
    · intro bucket member
      rcases List.mem_append.mp member with closed | current
      · exact filed.headed bucket closed
      · rw [List.mem_singleton.mp current]
        exact headed_single table _

theorem bucketsOf_filed (bucketLow bucketHigh : ℚ) (sizes : List SSTableMeta) :
    (bucketsOf bucketLow bucketHigh sizes).flatMap Bucket.metas = sizes ∧
      ∀ bucket ∈ bucketsOf bucketLow bucketHigh sizes, Headed bucket := by
  have general : ∀ (rest : List SSTableMeta) (state : Bucketing) (tables : List SSTableMeta), Filed state tables →
      Filed (rest.foldl (Bucketing.file bucketLow bucketHigh) state) (tables ++ rest) := by
    intro rest
    induction rest with
    | nil => exact fun state tables filed => by rwa [List.append_nil]
    | cons table later ih =>
      intro state tables filed
      have step := ih _ _ (filed.file bucketLow bucketHigh table)
      rwa [List.append_assoc] at step
  cases sizes with
  | nil => exact ⟨rfl, by simp [bucketsOf]⟩
  | cons first rest =>
    have start : Filed (.start first) [first] :=
      ⟨rfl, fun bucket member => List.mem_singleton.mp member ▸ headed_single first _⟩
    have all := general rest _ _ start
    exact ⟨all.tables, all.headed⟩

def totalSize (tables : List SSTableMeta) : ℚ := (tables.map fun table => (table.sizeBytes : ℚ)).sum

/-- The size of the table lies in the band around the average of the others. -/
def InBand (bucketLow bucketHigh : ℚ) (tables : List SSTableMeta) (table : SSTableMeta) : Prop :=
  bucketLow * (totalSize tables / tables.length) ≤ table.sizeBytes ∧
    table.sizeBytes ≤ bucketHigh * (totalSize tables / tables.length)

/-- The size buckets of tables that stand in the order of their sizes. -/
abbrev SizeBuckets (bucketLow bucketHigh : ℚ) : List SSTableMeta → List (List SSTableMeta) → Prop :=
  Runs (InBand bucketLow bucketHigh)

/-- The loop's variables say what they are about. -/
structure Running (bucketLow bucketHigh : ℚ) (state : Bucketing) : Prop where
  run : Run (InBand bucketLow bucketHigh) state.current.metas
  average : state.current.average = totalSize state.current.metas / state.current.metas.length
  sum : state.sum = totalSize state.current.metas

theorem running_opened (bucketLow bucketHigh : ℚ) (closed : List Bucket) (table : SSTableMeta) :
    Running bucketLow bucketHigh (.opened closed table) :=
  ⟨run_single table, by simp [Bucketing.opened, totalSize], by simp [Bucketing.opened, totalSize]⟩

theorem Running.takes_iff {bucketLow bucketHigh : ℚ} {state : Bucketing} (running : Running bucketLow bucketHigh state)
    (table : SSTableMeta) :
    state.Takes bucketLow bucketHigh table ↔ InBand bucketLow bucketHigh state.current.metas table := by
  rw [Bucketing.Takes, InBand, running.average]

/-- The loop closes a bucket where the run ends. -/
theorem foldl_file_runs {bucketLow bucketHigh : ℚ} (rest : List SSTableMeta) {state : Bucketing}
    (running : Running bucketLow bucketHigh state) : ∃ runs,
      (rest.foldl (Bucketing.file bucketLow bucketHigh) state).buckets.map Bucket.metas =
        state.closed.map Bucket.metas ++ runs ∧
      SizeBuckets bucketLow bucketHigh (state.current.metas ++ rest) runs := by
  induction rest generalizing state with
  | nil =>
    refine ⟨[state.current.metas], by simp [Bucketing.buckets], ?_⟩
    exact .cons running.run (by simp) .nil
  | cons table later ih =>
    rw [List.foldl_cons]
    by_cases takes : state.Takes bucketLow bucketHigh table
    · have total : totalSize (state.current.metas ++ [table]) = state.sum + table.sizeBytes := by
        simp [running.sum, totalSize]
      have grown : Running bucketLow bucketHigh (state.file bucketLow bucketHigh table) := by
        rw [file_takes takes]
        exact ⟨running.run.snoc ((running.takes_iff table).mp takes), by rw [total], total.symm⟩
      obtain ⟨runs, buckets, cut⟩ := ih grown
      refine ⟨runs, ?_, ?_⟩
      · rw [buckets, file_takes takes]
      · rw [file_takes takes] at cut
        simpa using cut
    · obtain ⟨runs, buckets, cut⟩ := ih (file_opens takes ▸ running_opened bucketLow bucketHigh state.buckets table)
      rw [file_opens takes] at buckets cut ⊢
      refine ⟨state.current.metas :: runs, ?_, ?_⟩
      · rw [buckets]
        simp [Bucketing.opened, Bucketing.buckets]
      · refine .cons running.run ?_ cut
        intro item head
        cases head
        exact mt (running.takes_iff table).mpr takes

theorem bucketsOf_runs (bucketLow bucketHigh : ℚ) (sizes : List SSTableMeta) :
    SizeBuckets bucketLow bucketHigh sizes ((bucketsOf bucketLow bucketHigh sizes).map Bucket.metas) := by
  cases sizes with
  | nil => exact .nil
  | cons first rest =>
    obtain ⟨runs, buckets, cut⟩ := foldl_file_runs rest (running_opened bucketLow bucketHigh [] first)
    rw [Bucketing.opened, List.map_nil, List.nil_append] at buckets
    exact buckets ▸ cut

/-- A run of `pick`, with any order where its sorts leave one. -/
inductive Picks (minMergeWidth maxMergeWidth : Nat) (bucketLow bucketHigh : ℚ) (live : List SSTableMeta) :
    Except Error (Option CompactionCandidate) → Prop
  | nothing (empty : live = []) : Picks minMergeWidth maxMergeWidth bucketLow bucketHigh live (.ok none)
  | narrow {sizes : List SSTableMeta} (sorts : SortsTo (fun left right => left.sizeBytes ≤ right.sizeBytes) live sizes)
      (few : (bucketsOf bucketLow bucketHigh sizes).filter (fun bucket => minMergeWidth ≤ bucket.metas.length) = []) :
      Picks minMergeWidth maxMergeWidth bucketLow bucketHigh live (.ok none)
  | throws {sizes : List SSTableMeta} {bucket : Bucket}
      (sorts : SortsTo (fun left right => left.sizeBytes ≤ right.sizeBytes) live sizes)
      (formed : bucket ∈ bucketsOf bucketLow bucketHigh sizes) (wide : minMergeWidth ≤ bucket.metas.length)
      (beyond : maxSize < maxMergeWidth) :
      Picks minMergeWidth maxMergeWidth bucketLow bucketHigh live (.error lengthError)
  | wide {sizes ordered : List SSTableMeta} {chosen : Bucket} {others : List Bucket} {liveInputs : List SSTableId}
      (sorts : SortsTo (fun left right => left.sizeBytes ≤ right.sizeBytes) live sizes)
      (found : SortsTo (fun left right => left.oldest ≤ right.oldest)
        ((bucketsOf bucketLow bucketHigh sizes).filter fun bucket => minMergeWidth ≤ bucket.metas.length)
        (chosen :: others))
      (room : maxMergeWidth ≤ maxSize)
      (orders : SortsTo (fun left right => left.id ≤ right.id) chosen.metas ordered)
      (lists : SortsTo (· ≤ ·) (live.map SSTableMeta.id) liveInputs) :
      Picks minMergeWidth maxMergeWidth bucketLow bucketHigh live
        (.ok (some ⟨(ordered.map SSTableMeta.id).take (max 1 maxMergeWidth),
          canDropTombstones liveInputs ((ordered.map SSTableMeta.id).take (max 1 maxMergeWidth))⟩))

section

variable {minMergeWidth maxMergeWidth : Nat} {bucketLow bucketHigh : ℚ} {live : List SSTableMeta}

/-- The model's sorts are one such order. -/
theorem picks_pick : Picks minMergeWidth maxMergeWidth bucketLow bucketHigh live
    (pick minMergeWidth maxMergeWidth bucketLow bucketHigh live) := by
  have sizes := sortsTo_insertionSort (fun left right : SSTableMeta => left.sizeBytes ≤ right.sizeBytes) live
  simp only [pick]
  split
  · rename_i empty
    exact .nothing (List.eq_nil_of_length_eq_zero empty)
  · have found := sortsTo_insertionSort (fun left right : Bucket => left.oldest ≤ right.oldest)
      ((formBuckets bucketLow bucketHigh live).filter fun bucket => minMergeWidth ≤ bucket.metas.length)
    rw [formBuckets_eq] at found ⊢
    split
    · rename_i none
      rw [none] at found
      exact .narrow sizes found.perm.nil_eq.symm
    · rename_i chosen others some
      rw [some] at found
      split
      · rename_i beyond
        have eligible := List.mem_filter.mp (found.perm.mem_iff.mp (List.mem_cons_self ..))
        exact .throws sizes eligible.1 (of_decide_eq_true eligible.2) beyond
      · rename_i room
        exact .wide sizes found (not_lt.mp room) (sortsTo_insertionSort _ _) (sortsTo_insertionSort _ _)

/-- A bucket wide enough, with the oldest table of all such buckets. -/
structure Chosen (minMergeWidth : Nat) (buckets : List Bucket) (bucket : Bucket) : Prop where
  formed : bucket ∈ buckets
  wide : minMergeWidth ≤ bucket.metas.length
  oldest : ∀ other ∈ buckets, minMergeWidth ≤ other.metas.length → bucket.oldest ≤ other.oldest

/-- The ids of some tables in ascending order. -/
def ascendingIds (tables : List SSTableMeta) : List SSTableId := (tables.map SSTableMeta.id).insertionSort (· ≤ ·)

/-- What a run makes of the bucket that it has chosen. -/
def candidateOf (maxMergeWidth : Nat) (live : List SSTableMeta) (bucket : Bucket) : CompactionCandidate :=
  ⟨(ascendingIds bucket.metas).take (max 1 maxMergeWidth),
    canDropTombstones (ascendingIds live) ((ascendingIds bucket.metas).take (max 1 maxMergeWidth))⟩

theorem ascendingIds_unique {tables ordered : List SSTableMeta}
    (orders : SortsTo (fun left right => left.id ≤ right.id) tables ordered) :
    ordered.map SSTableMeta.id = ascendingIds tables := by
  have sorted : SortsTo (· ≤ ·) (tables.map SSTableMeta.id) (ordered.map SSTableMeta.id) :=
    ⟨orders.perm.map _, List.pairwise_map.mpr orders.ordered⟩
  exact sorted.unique (sortsTo_insertionSort _ _) (.refl _) fun _ _ _ _ => le_antisymm

theorem ascendingIds_perm {tables other : List SSTableMeta} (same : tables.Perm other) :
    ascendingIds tables = ascendingIds other :=
  (sortsTo_insertionSort _ _).unique (sortsTo_insertionSort _ _) (same.map _) fun _ _ _ _ => le_antisymm

/-- What a run returns for the bucket that it has chosen. -/
def outcomeOf (maxMergeWidth : Nat) (live : List SSTableMeta) (bucket : Bucket) :
    Except Error (Option CompactionCandidate) :=
  if maxSize < maxMergeWidth then .error lengthError else .ok (some (candidateOf maxMergeWidth live bucket))

/-- The first of the wide buckets in the order of their oldest tables. -/
theorem chosen_of_sorted {buckets others : List Bucket} {chosen : Bucket}
    (found : SortsTo (fun left right => left.oldest ≤ right.oldest)
      (buckets.filter fun bucket => minMergeWidth ≤ bucket.metas.length) (chosen :: others)) :
    Chosen minMergeWidth buckets chosen := by
  have eligible : ∀ bucket, bucket ∈ chosen :: others ↔ bucket ∈ buckets ∧ minMergeWidth ≤ bucket.metas.length := by
    intro bucket
    rw [found.perm.mem_iff, List.mem_filter, decide_eq_true_iff]
  obtain ⟨formed, wide⟩ := (eligible chosen).mp (List.mem_cons_self ..)
  refine ⟨formed, wide, ?_⟩
  intro other member otherWide
  rcases List.mem_cons.mp ((eligible other).mpr ⟨member, otherWide⟩) with rfl | later
  · exact le_rfl
  · exact (List.pairwise_cons.mp found.ordered).1 other later

/-- Where a bucket is wide enough, there is one to choose. -/
theorem exists_chosen {buckets : List Bucket} {bucket : Bucket} (formed : bucket ∈ buckets)
    (wide : minMergeWidth ≤ bucket.metas.length) : ∃ chosen, Chosen minMergeWidth buckets chosen := by
  have found := sortsTo_insertionSort (fun left right : Bucket => left.oldest ≤ right.oldest)
    (buckets.filter fun bucket => minMergeWidth ≤ bucket.metas.length)
  cases sorted : (buckets.filter fun bucket => minMergeWidth ≤ bucket.metas.length).insertionSort
      (fun left right : Bucket => left.oldest ≤ right.oldest) with
  | nil =>
    rw [sorted] at found
    exact absurd wide (by simpa using List.filter_eq_nil_iff.mp found.perm.nil_eq.symm bucket formed)
  | cons chosen others => exact ⟨chosen, chosen_of_sorted (sorted ▸ found)⟩

/-- A run decides by the buckets of its own sort. -/
theorem Picks.decides {result : Except Error (Option CompactionCandidate)}
    (picks : Picks minMergeWidth maxMergeWidth bucketLow bucketHigh live result) :
    ∃ sizes, SortsTo (fun left right => left.sizeBytes ≤ right.sizeBytes) live sizes ∧
      (result = .ok none ∧ (∀ bucket ∈ bucketsOf bucketLow bucketHigh sizes, bucket.metas.length < minMergeWidth) ∨
        ∃ chosen, Chosen minMergeWidth (bucketsOf bucketLow bucketHigh sizes) chosen ∧
          result = outcomeOf maxMergeWidth live chosen) := by
  cases picks with
  | nothing empty =>
    subst empty
    exact ⟨[], ⟨.refl _, .nil⟩, .inl ⟨rfl, by simp [bucketsOf]⟩⟩
  | narrow sorts few =>
    refine ⟨_, sorts, .inl ⟨rfl, fun bucket member => ?_⟩⟩
    simpa using List.filter_eq_nil_iff.mp few bucket member
  | throws sorts formed wide beyond =>
    obtain ⟨chosen, oldest⟩ := exists_chosen formed wide
    exact ⟨_, sorts, .inr ⟨chosen, oldest, by rw [outcomeOf, if_pos beyond]⟩⟩
  | @wide sizes ordered chosen others liveInputs sorts found room orders lists =>
    refine ⟨sizes, sorts, .inr ⟨chosen, chosen_of_sorted found, ?_⟩⟩
    have listed : liveInputs = ascendingIds live :=
      lists.unique (sortsTo_insertionSort _ _) (.refl _) fun _ _ _ _ => le_antisymm
    rw [outcomeOf, if_neg (not_lt.mpr room), candidateOf, ascendingIds_unique orders, listed]

/-- And so by those of any other sort. -/
theorem Picks.decides_by {other sizes : List SSTableMeta} {result : Except Error (Option CompactionCandidate)}
    (nonnegative : 0 ≤ bucketLow) (low : bucketLow ≤ 1) (high : 1 ≤ bucketHigh) (same : other.Perm live)
    (sorts : SortsTo (fun left right => left.sizeBytes ≤ right.sizeBytes) live sizes)
    (picks : Picks minMergeWidth maxMergeWidth bucketLow bucketHigh other result) :
    result = .ok none ∧ (∀ bucket ∈ bucketsOf bucketLow bucketHigh sizes, bucket.metas.length < minMergeWidth) ∨
      ∃ chosen, Chosen minMergeWidth (bucketsOf bucketLow bucketHigh sizes) chosen ∧
        result = outcomeOf maxMergeWidth live chosen := by
  obtain ⟨own, ownSorts, decided⟩ := picks.decides
  have forth := sameBuckets_twin (bucketsOf_same nonnegative low high ownSorts sorts same)
  have back := sameBuckets_twin (bucketsOf_same nonnegative low high sorts ownSorts same.symm)
  rcases decided with ⟨none, narrow⟩ | ⟨chosen, ⟨formed, wide, oldest⟩, some⟩
  · refine .inl ⟨none, fun bucket member => ?_⟩
    obtain ⟨twin, present, alike⟩ := back bucket member
    rw [alike.metas.length_eq]
    exact narrow twin present
  · obtain ⟨twin, present, alike⟩ := forth chosen formed
    refine .inr ⟨twin, ⟨present, alike.metas.length_eq ▸ wide, ?_⟩, ?_⟩
    · intro bucket member bucketWide
      obtain ⟨source, held, matching⟩ := back bucket member
      rw [← alike.oldest, matching.oldest]
      exact oldest source held (matching.metas.length_eq ▸ bucketWide)
    · rw [some, outcomeOf, outcomeOf, candidateOf, candidateOf, ascendingIds_perm alike.metas, ascendingIds_perm same]

/-- With distinct ids there is only one bucket to choose. -/
theorem Chosen.unique {sizes : List SSTableMeta} {left right : Bucket}
    (sorts : SortsTo (fun left right => left.sizeBytes ≤ right.sizeBytes) live sizes)
    (distinct : (live.map SSTableMeta.id).Nodup)
    (leftChosen : Chosen minMergeWidth (bucketsOf bucketLow bucketHigh sizes) left)
    (rightChosen : Chosen minMergeWidth (bucketsOf bucketLow bucketHigh sizes) right) : left = right := by
  obtain ⟨tables, headed⟩ := bucketsOf_filed bucketLow bucketHigh sizes
  have oldest : left.oldest = right.oldest :=
    le_antisymm (leftChosen.oldest right rightChosen.formed rightChosen.wide)
      (rightChosen.oldest left leftChosen.formed leftChosen.wide)
  obtain ⟨table, held, id⟩ := (headed left leftChosen.formed).held
  obtain ⟨other, otherHeld, otherId⟩ := (headed right rightChosen.formed).held
  have nodup : ((bucketsOf bucketLow bucketHigh sizes).flatMap fun bucket => bucket.metas.map SSTableMeta.id).Nodup := by
    rw [← List.map_flatMap, tables]
    exact (sorts.perm.map _).nodup_iff.mpr distinct
  have symmetric : Std.Symm (Function.onFun List.Disjoint fun bucket : Bucket => bucket.metas.map SSTableMeta.id) :=
    ⟨fun _ _ apart => apart.symm⟩
  by_contra differs
  have apart := (List.nodup_flatMap.mp nodup).2.forall leftChosen.formed rightChosen.formed differs
  refine apart (List.mem_map.mpr ⟨table, held, rfl⟩) (List.mem_map.mpr ⟨other, otherHeld, ?_⟩)
  rw [otherId, id, oldest]

theorem canDropTombstones_iff {oldest inputs : List SSTableId} (ascending : inputs.Pairwise (· ≤ ·)) (filled : inputs ≠ []) :
    canDropTombstones oldest inputs = true ↔ inputs = oldest.take inputs.length := by
  constructor
  · intro drop
    obtain ⟨_, contained⟩ := canDropTombstones_prefix drop
    rw [ascending.insertionSort_eq] at contained
    exact List.prefix_iff_eq_take.mp contained
  · intro same
    have count := congrArg List.length same
    rw [List.length_take] at count
    have positive := List.length_pos_iff.mpr filled
    have agree : ∀ front rest : List SSTableId, ∀ pair ∈ (front ++ rest).zip front, decide (pair.1 = pair.2) = true := by
      intro front rest
      induction front with
      | nil => simp
      | cons id later ih => simpa using ih
    rw [canDropTombstones, if_neg (by omega), ascending.insertionSort_eq, List.all_eq_true]
    have whole := agree inputs (oldest.drop inputs.length)
    rw [show inputs ++ oldest.drop inputs.length = oldest by nth_rewrite 1 [same]; exact List.take_append_drop _ _] at whole
    exact whole

theorem bucket_ids {sizes : List SSTableMeta} {bucket : Bucket}
    (sorts : SortsTo (fun left right => left.sizeBytes ≤ right.sizeBytes) live sizes)
    (formed : bucket ∈ bucketsOf bucketLow bucketHigh sizes) :
    (bucket.metas.map SSTableMeta.id).Subset (live.map SSTableMeta.id) ∧
      ((live.map SSTableMeta.id).Nodup → (bucket.metas.map SSTableMeta.id).Nodup) := by
  have tables := (bucketsOf_filed bucketLow bucketHigh sizes).1
  have ids := sorts.perm.map SSTableMeta.id
  rw [← tables, List.map_flatMap] at ids
  constructor
  · intro id member
    exact ids.mem_iff.mp (List.mem_flatMap.mpr ⟨bucket, formed, member⟩)
  · intro distinct
    exact (List.nodup_flatMap.mp (ids.nodup_iff.mpr distinct)).1 bucket formed

/-- What a candidate is taken from, and what it says. -/
structure TakesOldest (minMergeWidth maxMergeWidth : Nat) (buckets : List (List SSTableMeta)) (live : List SSTableMeta)
    (candidate : CompactionCandidate) : Prop where
  inputs : ∃ bucket ∈ buckets, minMergeWidth ≤ bucket.length ∧
    (∃ oldest ∈ bucket, ∀ other ∈ buckets, minMergeWidth ≤ other.length → ∀ table ∈ other, oldest.id ≤ table.id) ∧
    candidate.inputs = (ascendingIds bucket).take maxMergeWidth
  ascending : candidate.inputs.Pairwise (· < ·)
  width : minMergeWidth ≤ candidate.inputs.length ∧ candidate.inputs.length ≤ maxMergeWidth
  contained : candidate.inputs ⊆ live.map SSTableMeta.id
  drops : candidate.canDropTombstone = true ↔ candidate.inputs = (ascendingIds live).take candidate.inputs.length

theorem takesOldest_of_chosen {sizes : List SSTableMeta} {bucket : Bucket} (least : 1 ≤ minMergeWidth)
    (most : minMergeWidth ≤ maxMergeWidth)
    (sorts : SortsTo (fun left right => left.sizeBytes ≤ right.sizeBytes) live sizes)
    (distinct : (live.map SSTableMeta.id).Nodup)
    (chosen : Chosen minMergeWidth (bucketsOf bucketLow bucketHigh sizes) bucket) :
    TakesOldest minMergeWidth maxMergeWidth ((bucketsOf bucketLow bucketHigh sizes).map Bucket.metas) live
      (candidateOf maxMergeWidth live bucket) := by
  have headed := (bucketsOf_filed bucketLow bucketHigh sizes).2
  obtain ⟨contained, nodup⟩ := bucket_ids sorts chosen.formed
  obtain ⟨oldest, held, id⟩ := (headed bucket chosen.formed).held
  have limit : max 1 maxMergeWidth = maxMergeWidth := max_eq_right (least.trans most)
  have perm : (ascendingIds bucket.metas).Perm (bucket.metas.map SSTableMeta.id) := List.perm_insertionSort _ _
  have count : (ascendingIds bucket.metas).length = bucket.metas.length := by
    rw [perm.length_eq, List.length_map]
  have sorted : (ascendingIds bucket.metas).Pairwise (· ≤ ·) := List.pairwise_insertionSort _ _
  have strict : (ascendingIds bucket.metas).Pairwise (· < ·) :=
    (sorted.and (perm.nodup_iff.mpr (nodup distinct))).imp fun ⟨below, apart⟩ => lt_of_le_of_ne below apart
  have wide := chosen.wide
  have width : minMergeWidth ≤ ((ascendingIds bucket.metas).take maxMergeWidth).length ∧
      ((ascendingIds bucket.metas).take maxMergeWidth).length ≤ maxMergeWidth := by
    rw [List.length_take]
    omega
  rw [candidateOf, limit]
  refine ⟨⟨bucket.metas, List.mem_map_of_mem chosen.formed, wide, ⟨oldest, held, ?_⟩, rfl⟩, strict.take, width, ?_, ?_⟩
  · intro other formed otherWide table member
    obtain ⟨source, present, same⟩ := List.mem_map.mp formed
    rw [← same] at otherWide member
    rw [id]
    exact (chosen.oldest source present otherWide).trans ((headed source present).least table member)
  · intro id member
    exact contained (perm.mem_iff.mp (List.mem_of_mem_take member))
  · refine canDropTombstones_iff sorted.take ?_
    intro none
    have nothing := congrArg List.length none
    rw [List.length_nil] at nothing
    omega

/-- What is asked of `pick`: no candidate unless a size bucket is wide enough, and
else the oldest tables of the bucket with the oldest one; and no order of the live
tables, and none that sorting gives to tables of one size, makes a difference. -/
structure PicksOldest (minMergeWidth maxMergeWidth : Nat) (bucketLow bucketHigh : ℚ) (live : List SSTableMeta) :
    Prop where
  idle : ∀ sizes buckets, SortsTo (fun left right => left.sizeBytes ≤ right.sizeBytes) live sizes →
    SizeBuckets bucketLow bucketHigh sizes buckets →
      (pick minMergeWidth maxMergeWidth bucketLow bucketHigh live = .ok none ↔
        ∀ bucket ∈ buckets, bucket.length < minMergeWidth)
  takes : ∀ sizes buckets, SortsTo (fun left right => left.sizeBytes ≤ right.sizeBytes) live sizes →
    SizeBuckets bucketLow bucketHigh sizes buckets → (∃ bucket ∈ buckets, minMergeWidth ≤ bucket.length) →
      ∃ candidate, pick minMergeWidth maxMergeWidth bucketLow bucketHigh live = .ok (some candidate) ∧
        TakesOldest minMergeWidth maxMergeWidth buckets live candidate
  settled : ∀ other result, other.Perm live → Picks minMergeWidth maxMergeWidth bucketLow bucketHigh other result →
    result = pick minMergeWidth maxMergeWidth bucketLow bucketHigh live

/-- However `pick` sorts, it comes to one result. -/
theorem pick_settled (nonnegative : 0 ≤ bucketLow) (low : bucketLow ≤ 1) (high : 1 ≤ bucketHigh)
    (distinct : (live.map SSTableMeta.id).Nodup) {other : List SSTableMeta}
    {result : Except Error (Option CompactionCandidate)} (same : other.Perm live)
    (picks : Picks minMergeWidth maxMergeWidth bucketLow bucketHigh other result) :
    result = pick minMergeWidth maxMergeWidth bucketLow bucketHigh live := by
  have sorts := sortsTo_insertionSort (fun left right : SSTableMeta => left.sizeBytes ≤ right.sizeBytes) live
  rcases picks_pick.decides_by nonnegative low high (.refl _) sorts with ⟨none, narrow⟩ | ⟨bucket, chosen, some⟩
  · rcases picks.decides_by nonnegative low high same sorts with ⟨alsoNone, _⟩ | ⟨other, wide, _⟩
    · rw [none, alsoNone]
    · exact absurd wide.wide (not_le.mpr (narrow other wide.formed))
  · rcases picks.decides_by nonnegative low high same sorts with ⟨_, narrow⟩ | ⟨other, otherChosen, alsoSome⟩
    · exact absurd chosen.wide (not_le.mpr (narrow bucket chosen.formed))
    · rw [some, alsoSome, otherChosen.unique sorts distinct chosen]

/-- The size-tiered policy picks the oldest tables of the bucket with the oldest one,
unless it has a bucket to pick and a width for which no vector has room. -/
theorem size_tiered_picks_oldest_iff (nonnegative : 0 ≤ bucketLow) (low : bucketLow ≤ 1) (high : 1 ≤ bucketHigh)
    (least : 1 ≤ minMergeWidth) (most : minMergeWidth ≤ maxMergeWidth) (distinct : (live.map SSTableMeta.id).Nodup) :
    PicksOldest minMergeWidth maxMergeWidth bucketLow bucketHigh live ↔
      (∀ sizes buckets, SortsTo (fun left right => left.sizeBytes ≤ right.sizeBytes) live sizes →
        SizeBuckets bucketLow bucketHigh sizes buckets → ∀ bucket ∈ buckets, bucket.length < minMergeWidth) ∨
      maxMergeWidth < 2 ^ 60 := by
  have limit : maxMergeWidth < 2 ^ 60 ↔ ¬ maxSize < maxMergeWidth := by
    rw [maxSize]
    omega
  have decided : ∀ {sizes buckets}, SortsTo (fun left right => left.sizeBytes ≤ right.sizeBytes) live sizes →
      SizeBuckets bucketLow bucketHigh sizes buckets →
        buckets = (bucketsOf bucketLow bucketHigh sizes).map Bucket.metas ∧
        (pick minMergeWidth maxMergeWidth bucketLow bucketHigh live = .ok none ∧
            (∀ bucket ∈ buckets, bucket.length < minMergeWidth) ∨
          ∃ chosen, Chosen minMergeWidth (bucketsOf bucketLow bucketHigh sizes) chosen ∧
            pick minMergeWidth maxMergeWidth bucketLow bucketHigh live = outcomeOf maxMergeWidth live chosen) := by
    intro sizes buckets sorts cut
    have same := cut.unique (bucketsOf_runs bucketLow bucketHigh sizes)
    refine ⟨same, (picks_pick.decides_by nonnegative low high (.refl _) sorts).imp_left fun idle => ⟨idle.1, ?_⟩⟩
    rw [same, List.forall_mem_map]
    exact idle.2
  constructor
  · intro picks
    by_cases room : maxMergeWidth < 2 ^ 60
    · exact .inr room
    · refine .inl fun sizes buckets sorts cut bucket member => ?_
      by_contra wide
      obtain ⟨candidate, picked, _⟩ := picks.takes sizes buckets sorts cut ⟨bucket, member, not_lt.mp wide⟩
      rcases (decided sorts cut).2 with ⟨_, narrow⟩ | ⟨chosen, _, outcome⟩
      · exact wide (narrow bucket member)
      · rw [outcome, outcomeOf, if_pos (not_not.mp (mt limit.mpr room))] at picked
        cases picked
  · intro condition
    refine ⟨?_, ?_, fun other result same picks => pick_settled nonnegative low high distinct same picks⟩
    · intro sizes buckets sorts cut
      obtain ⟨same, ⟨idle, narrow⟩ | ⟨chosen, oldest, outcome⟩⟩ := decided sorts cut
      · exact ⟨fun _ => narrow, fun _ => idle⟩
      · have wide : ¬ ∀ bucket ∈ buckets, bucket.length < minMergeWidth := fun narrow =>
          absurd (narrow chosen.metas (same ▸ List.mem_map_of_mem oldest.formed)) (not_lt.mpr oldest.wide)
        refine ⟨fun idle => ?_, fun narrow => absurd narrow wide⟩
        rw [outcome, outcomeOf] at idle
        split at idle <;> cases idle
    · intro sizes buckets sorts cut eligible
      obtain ⟨bucket, member, wide⟩ := eligible
      have room : ¬ maxSize < maxMergeWidth := by
        rcases condition with narrow | room
        · exact absurd (narrow sizes buckets sorts cut bucket member) (not_lt.mpr wide)
        · exact limit.mp room
      obtain ⟨same, ⟨_, narrow⟩ | ⟨chosen, oldest, outcome⟩⟩ := decided sorts cut
      · exact absurd (narrow bucket member) (not_lt.mpr wide)
      · refine ⟨candidateOf maxMergeWidth live chosen, by rw [outcome, outcomeOf, if_neg room], ?_⟩
        rw [same]
        exact takesOldest_of_chosen least most sorts distinct oldest

end

/-- Three tables of about one size and a larger one: the oldest two of the three are
taken, the oldest table of all is not among them. -/
theorem size_tiered_picks_oldest_of_four :
    pick 2 2 (1 / 2) (3 / 2) [⟨4, 100, 1, 1⟩, ⟨1, 900, 1, 1⟩, ⟨3, 100, 1, 1⟩, ⟨2, 120, 1, 1⟩] = .ok (some ⟨[2, 3], false⟩) ∧
    PicksOldest 2 2 (1 / 2) (3 / 2) [⟨4, 100, 1, 1⟩, ⟨1, 900, 1, 1⟩, ⟨3, 100, 1, 1⟩, ⟨2, 120, 1, 1⟩] := by
  refine ⟨by decide +kernel, ?_⟩
  exact (size_tiered_picks_oldest_iff (by norm_num) (by norm_num) (by norm_num) (by decide) (by decide) (by decide)).mpr
    (.inr (by norm_num))

/-- Two tables of one size and no limit to the merge: `pick` throws. -/
theorem limitless_width_throws :
    pick 2 (2 ^ 64 - 1) (1 / 2) (3 / 2) [⟨1, 100, 1, 1⟩, ⟨2, 100, 1, 1⟩] = .error lengthError ∧
    SizeBuckets (1 / 2) (3 / 2) [⟨1, 100, 1, 1⟩, ⟨2, 100, 1, 1⟩] [[⟨1, 100, 1, 1⟩, ⟨2, 100, 1, 1⟩]] ∧
    ¬ PicksOldest 2 (2 ^ 64 - 1) (1 / 2) (3 / 2) [⟨1, 100, 1, 1⟩, ⟨2, 100, 1, 1⟩] := by
  have thrown : pick 2 (2 ^ 64 - 1) (1 / 2) (3 / 2) [⟨1, 100, 1, 1⟩, ⟨2, 100, 1, 1⟩] = .error lengthError := by
    decide +kernel
  have cut : SizeBuckets (1 / 2) (3 / 2) [⟨1, 100, 1, 1⟩, ⟨2, 100, 1, 1⟩] [[⟨1, 100, 1, 1⟩, ⟨2, 100, 1, 1⟩]] := by
    have formed := bucketsOf_runs (1 / 2) (3 / 2) [⟨1, 100, 1, 1⟩, ⟨2, 100, 1, 1⟩]
    have whole : (bucketsOf (1 / 2) (3 / 2) [⟨1, 100, 1, 1⟩, ⟨2, 100, 1, 1⟩]).map Bucket.metas =
        [[⟨1, 100, 1, 1⟩, ⟨2, 100, 1, 1⟩]] := by
      decide +kernel
    rwa [whole] at formed
  refine ⟨thrown, cut, fun picks => ?_⟩
  obtain ⟨candidate, picked, _⟩ := picks.takes _ _ ⟨.refl _, by decide⟩ cut ⟨_, List.mem_singleton.mpr rfl, by decide⟩
  rw [thrown] at picked
  cases picked

end SizeTiered

end Enigma
