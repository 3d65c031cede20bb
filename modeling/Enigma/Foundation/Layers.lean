import Enigma.Foundation.SortedMap

/-! Stacks of sorted layers. A lookup takes the first layer from the top that
has the key; where higher layers carry the versions of higher rank, that is the
version of the highest rank. Merging some layers into a new top one keeps this
as long as no layer left out ranks above what the merge carries. -/

namespace Enigma

universe u v

abbrev Layers (κ : Type u) (ν : Type v) := SortedMap Nat (List (κ × ν))

namespace Layers

variable {κ : Type u} {ν : Type v} [LinearOrder κ]

def lookup (layers : Layers κ ν) (key : κ) : Option ν := layers.newest fun _ layer => Assoc.find? layer key

/-- Some layer under a number that satisfies the filter holds this version. -/
def Holds (layers : Layers κ ν) (within : Nat → Prop) (key : κ) (version : ν) : Prop :=
  ∃ id layer, layers.find? id = some layer ∧ within id ∧ (key, version) ∈ layer

/-- Higher layers hold versions of higher rank. -/
structure Ordered (rank : ν → Nat) (layers : Layers κ ν) : Prop where
  ascending : ∀ id layer, layers.find? id = some layer → Assoc.Ascending layer
  newer : ∀ low high lower higher, low < high → layers.find? low = some lower → layers.find? high = some higher →
    ∀ key old new, (key, old) ∈ lower → (key, new) ∈ higher → rank old < rank new

/-- The merge of some layers becomes the top layer. -/
def merge (layers : Layers κ ν) (inputs : List Nat) (top : Nat) (output : List (κ × ν)) : Layers κ ν :=
  (inputs.foldl SortedMap.erase layers).insert top output

/-- `output` carries for each key of the inputs its version of the highest rank,
unless that version may be dropped. -/
structure Winners (rank : ν → Nat) (layers : Layers κ ν) (inputs : List Nat) (droppable : ν → Prop)
    (output : List (κ × ν)) : Prop where
  ascending : Assoc.Ascending output
  newest : ∀ key version, (key, version) ∈ output → Holds layers (· ∈ inputs) key version ∧
    ∀ other, Holds layers (· ∈ inputs) key other → rank other ≤ rank version
  covers : ∀ key version, Holds layers (· ∈ inputs) key version → (∃ kept, (key, kept) ∈ output) ∨
    ∃ winner, Holds layers (· ∈ inputs) key winner ∧ droppable winner ∧
      ∀ other, Holds layers (· ∈ inputs) key other → rank other ≤ rank winner

variable {rank : ν → Nat} {layers : Layers κ ν}

theorem ordered_empty : Ordered rank (.empty : Layers κ ν) :=
  ⟨fun _ _ found => by simp at found, fun _ _ _ _ _ found => by simp at found⟩

/-- A stack stays in order when its layers lose entries. -/
theorem Ordered.thinned (ordered : Ordered rank layers) {change : List (κ × ν) → List (κ × ν)}
    (thin : ∀ layer, (change layer).Sublist layer) : Ordered rank (layers.mapValues fun _ layer => change layer) where
  ascending := by
    intro id layer found
    rw [SortedMap.find?_mapValues] at found
    obtain ⟨whole, present, rfl⟩ := Option.map_eq_some_iff.mp found
    exact List.Pairwise.sublist (thin whole) (ordered.ascending id whole present)
  newer := by
    intro low high lower higher below foundLow foundHigh key old new memberLow memberHigh
    rw [SortedMap.find?_mapValues] at foundLow foundHigh
    obtain ⟨wholeLow, presentLow, rfl⟩ := Option.map_eq_some_iff.mp foundLow
    obtain ⟨wholeHigh, presentHigh, rfl⟩ := Option.map_eq_some_iff.mp foundHigh
    exact ordered.newer low high wholeLow wholeHigh below presentLow presentHigh key old new
      ((thin wholeLow).subset memberLow) ((thin wholeHigh).subset memberHigh)

omit [LinearOrder κ] in
theorem Holds.mono {first second : Nat → Prop} {key : κ} {version : ν} (holds : Holds layers first key version)
    (weaker : ∀ id, first id → second id) : Holds layers second key version := by
  obtain ⟨id, layer, found, inside, member⟩ := holds
  exact ⟨id, layer, found, weaker id inside, member⟩

theorem Ordered.rank_lt (ordered : Ordered rank layers) {first second : Nat → Prop} {key : κ} {old new : ν}
    (older : Holds layers first key old) (newer : Holds layers second key new)
    (below : ∀ low high, first low → second high → low < high) : rank old < rank new := by
  obtain ⟨low, lower, foundLow, isFirst, memberLow⟩ := older
  obtain ⟨high, higher, foundHigh, isSecond, memberHigh⟩ := newer
  exact ordered.newer low high lower higher (below low high isFirst isSecond) foundLow foundHigh key old new
    memberLow memberHigh

/-- Versions of one key with equal ranks are one version. -/
theorem Ordered.unique (ordered : Ordered rank layers) {within : Nat → Prop} {key : κ} {left right : ν}
    (holdsLeft : Holds layers within key left) (holdsRight : Holds layers within key right)
    (same : rank left = rank right) : left = right := by
  obtain ⟨first, lower, foundFirst, _, memberLeft⟩ := holdsLeft
  obtain ⟨second, higher, foundSecond, _, memberRight⟩ := holdsRight
  rcases lt_trichotomy first second with less | equal | greater
  · have strict := ordered.newer first second lower higher less foundFirst foundSecond key left right
      memberLeft memberRight
    omega
  · subst equal
    rw [foundFirst] at foundSecond
    cases foundSecond
    have ascending := ordered.ascending first lower foundFirst
    have one := Assoc.find?_of_mem ascending memberLeft
    have other := Assoc.find?_of_mem ascending memberRight
    simpa [one] using other
  · have strict := ordered.newer second first higher lower greater foundSecond foundFirst key right left
      memberRight memberLeft
    omega

theorem lookup_eq_none_iff {key : κ} :
    lookup layers key = none ↔ ∀ version, ¬ Holds layers (fun _ => True) key version := by
  rw [lookup, SortedMap.newest_eq_none_iff]
  constructor
  · rintro missed version ⟨id, layer, found, _, member⟩
    exact Assoc.find?_eq_none_iff.mp (missed id layer found) (key, version) member rfl
  · intro absent id layer found
    apply Assoc.find?_eq_none_iff.mpr
    rintro ⟨name, version⟩ member same
    exact absent version ⟨id, layer, found, trivial, same ▸ member⟩

theorem lookup_holds {key : κ} {version : ν} (found : lookup layers key = some version) :
    Holds layers (fun _ => True) key version := by
  obtain ⟨id, layer, present, hit, _⟩ := SortedMap.newest_eq_some_iff.mp found
  exact ⟨id, layer, present, trivial, Assoc.mem_of_find? hit⟩

/-- A lookup answers the version of the highest rank. -/
theorem lookup_eq_some_iff (ordered : Ordered rank layers) {key : κ} {version : ν} :
    lookup layers key = some version ↔ Holds layers (fun _ => True) key version ∧
      ∀ other, Holds layers (fun _ => True) key other → rank other ≤ rank version := by
  have highest : ∀ {version}, lookup layers key = some version →
      ∀ other, Holds layers (fun _ => True) key other → rank other ≤ rank version := by
    intro version found other holds
    obtain ⟨id, layer, present, hit, missed⟩ := SortedMap.newest_eq_some_iff.mp found
    obtain ⟨place, held, presentOther, _, member⟩ := holds
    rcases lt_trichotomy place id with less | equal | greater
    · exact (ordered.newer place id held layer less presentOther present key other version member
        (Assoc.mem_of_find? hit)).le
    · subst equal
      rw [present] at presentOther
      cases presentOther
      have same := Assoc.find?_of_mem (ordered.ascending place layer present) member
      rw [hit] at same
      cases same
      exact le_rfl
    · exact absurd rfl (Assoc.find?_eq_none_iff.mp (missed place held greater presentOther) _ member)
  constructor
  · exact fun found => ⟨lookup_holds found, highest found⟩
  · rintro ⟨holds, top⟩
    cases found : lookup layers key with
    | none => exact absurd holds (lookup_eq_none_iff.mp found version)
    | some other =>
      have equal := le_antisymm (top other (lookup_holds found)) (highest found version holds)
      rw [ordered.unique (lookup_holds found) holds equal]

theorem lookup_insert_above {top : Nat} (output : List (κ × ν)) (above : ∀ id ∈ layers.keys, id < top) (key : κ) :
    lookup (layers.insert top output) key = (Assoc.find? output key).or (lookup layers key) :=
  SortedMap.newest_insert_above output _ above

/-- A layer of new versions on top keeps the order. -/
theorem Ordered.insert_above (ordered : Ordered rank layers) {top : Nat} {output : List (κ × ν)}
    (above : ∀ id ∈ layers.keys, id < top) (ascending : Assoc.Ascending output)
    (newer : ∀ key old new, Holds layers (fun _ => True) key old → (key, new) ∈ output → rank old < rank new) :
    Ordered rank (layers.insert top output) where
  ascending := by
    intro id layer found
    by_cases same : id = top
    · simp only [SortedMap.find?_insert, same, ↓reduceIte, Option.some.injEq] at found
      exact found ▸ ascending
    · simp only [SortedMap.find?_insert, same, ↓reduceIte] at found
      exact ordered.ascending id layer found
  newer := by
    intro low high lower higher less foundLow foundHigh key old new memberLow memberHigh
    have lowBelow : low ≠ top := by
      intro same
      have present : high ∈ (layers.insert top output).keys := SortedMap.mem_keys_iff.mpr ⟨higher, foundHigh⟩
      rcases SortedMap.mem_keys_insert.mp present with equal | held
      · omega
      · have := above high held
        omega
    simp only [SortedMap.find?_insert, lowBelow, ↓reduceIte] at foundLow
    by_cases same : high = top
    · simp only [SortedMap.find?_insert, same, ↓reduceIte, Option.some.injEq] at foundHigh
      subst foundHigh
      exact newer key old new ⟨low, lower, foundLow, trivial, memberLow⟩ memberHigh
    · simp only [SortedMap.find?_insert, same, ↓reduceIte] at foundHigh
      exact ordered.newer low high lower higher less foundLow foundHigh key old new memberLow memberHigh

section Merge

variable {inputs : List Nat} {top : Nat} {output : List (κ × ν)} {droppable : ν → Prop}

omit [LinearOrder κ] in
theorem find?_erased {id : Nat} {layer : List (κ × ν)}
    (found : (inputs.foldl SortedMap.erase layers).find? id = some layer) :
    id ∉ inputs ∧ layers.find? id = some layer := by
  rw [SortedMap.foldl_erase_find?] at found
  by_cases member : id ∈ inputs
  · simp [member] at found
  · exact ⟨member, by simpa [member] using found⟩

omit [LinearOrder κ] in
theorem erased_above (above : ∀ id ∈ layers.keys, id < top) :
    ∀ id ∈ (inputs.foldl SortedMap.erase layers).keys, id < top := by
  intro id member
  obtain ⟨layer, found⟩ := SortedMap.mem_keys_iff.mp member
  exact above id (SortedMap.mem_keys_iff.mpr ⟨layer, (find?_erased found).2⟩)

omit [LinearOrder κ] in
theorem holds_erased {key : κ} {version : ν} :
    Holds (inputs.foldl SortedMap.erase layers) (fun _ => True) key version ↔
      Holds layers (· ∉ inputs) key version := by
  constructor
  · rintro ⟨id, layer, found, _, member⟩
    exact ⟨id, layer, (find?_erased found).2, (find?_erased found).1, member⟩
  · rintro ⟨id, layer, found, outside, member⟩
    exact ⟨id, layer, by simpa [SortedMap.foldl_erase_find?, outside] using found, trivial, member⟩

theorem Ordered.erased (ordered : Ordered rank layers) : Ordered rank (inputs.foldl SortedMap.erase layers) where
  ascending := fun id layer found => ordered.ascending id layer (find?_erased found).2
  newer := fun low high lower higher less foundLow foundHigh =>
    ordered.newer low high lower higher less (find?_erased foundLow).2 (find?_erased foundHigh).2

/-- Versions of one key inside and outside the inputs never tie. -/
theorem Ordered.rank_ne (ordered : Ordered rank layers) {key : κ} {inside outside : ν}
    (holdsInside : Holds layers (· ∈ inputs) key inside) (holdsOutside : Holds layers (· ∉ inputs) key outside) :
    rank inside ≠ rank outside := by
  obtain ⟨first, lower, foundFirst, isInput, memberInside⟩ := holdsInside
  obtain ⟨second, higher, foundSecond, notInput, memberOutside⟩ := holdsOutside
  have different : first ≠ second := fun same => notInput (same ▸ isInput)
  rcases lt_or_gt_of_ne different with less | greater
  · exact ne_of_lt (ordered.newer first second lower higher less foundFirst foundSecond key inside outside
      memberInside memberOutside)
  · exact ne_of_gt (ordered.newer second first higher lower greater foundSecond foundFirst key outside inside
      memberOutside memberInside)

omit [LinearOrder κ] in
theorem holds_inside_or_outside {key : κ} {version : ν} (holds : Holds layers (fun _ => True) key version) :
    Holds layers (· ∈ inputs) key version ∨ Holds layers (· ∉ inputs) key version := by
  obtain ⟨id, layer, found, _, member⟩ := holds
  by_cases inside : id ∈ inputs
  · exact .inl ⟨id, layer, found, inside, member⟩
  · exact .inr ⟨id, layer, found, inside, member⟩

/-- No layer left out holds a newer version of a key that the merge carries. -/
def NoneNewerOutside (rank : ν → Nat) (layers : Layers κ ν) (inputs : List Nat) (output : List (κ × ν)) : Prop :=
  ∀ key version, (key, version) ∈ output → ∀ other, Holds layers (· ∉ inputs) key other → rank other ≤ rank version

theorem Ordered.merge (ordered : Ordered rank layers) (winners : Winners rank layers inputs droppable output)
    (above : ∀ id ∈ layers.keys, id < top) (safe : NoneNewerOutside rank layers inputs output) :
    Ordered rank (Layers.merge layers inputs top output) := by
  apply ordered.erased.insert_above (erased_above above) winners.ascending
  intro key old new holds carried
  have outside := holds_erased.mp holds
  have inside := (winners.newest key new carried).1
  exact lt_of_le_of_ne (safe key new carried old outside) (Ne.symm (ordered.rank_ne inside outside))

/-- A safe merge changes no lookup, except that a key whose newest version was
droppable may be gone. -/
theorem lookup_merge (ordered : Ordered rank layers) (winners : Winners rank layers inputs droppable output)
    (above : ∀ id ∈ layers.keys, id < top) (safe : NoneNewerOutside rank layers inputs output)
    (oldest : ∀ key dropped other, droppable dropped → Holds layers (· ∈ inputs) key dropped →
      (∀ rival, Holds layers (· ∈ inputs) key rival → rank rival ≤ rank dropped) →
      (∀ kept, (key, kept) ∉ output) → Holds layers (· ∉ inputs) key other → rank dropped < rank other) (key : κ) :
    lookup (Layers.merge layers inputs top output) key = lookup layers key ∨
      lookup (Layers.merge layers inputs top output) key = none ∧
        ∃ dropped, lookup layers key = some dropped ∧ droppable dropped := by
  have step : lookup (Layers.merge layers inputs top output) key =
      (Assoc.find? output key).or (lookup (inputs.foldl SortedMap.erase layers) key) :=
    lookup_insert_above output (erased_above above) key
  have top_of_all : ∀ {version}, Holds layers (fun _ => True) key version →
      (∀ other, Holds layers (· ∈ inputs) key other → rank other ≤ rank version) →
      (∀ other, Holds layers (· ∉ inputs) key other → rank other ≤ rank version) →
      lookup layers key = some version := by
    intro version holds highInside highOutside
    refine (lookup_eq_some_iff ordered).mpr ⟨holds, ?_⟩
    intro other present
    rcases holds_inside_or_outside present with inside | outside
    · exact highInside other inside
    · exact highOutside other outside
  cases carried : Assoc.find? output key with
  | some version =>
    left
    have member := Assoc.mem_of_find? carried
    obtain ⟨inside, highest⟩ := winners.newest key version member
    rw [step, carried, top_of_all (inside.mono fun _ _ => trivial) highest (safe key version member)]
    rfl
  | none =>
    rw [step, carried, Option.none_or]
    have missing : ∀ kept, (key, kept) ∉ output :=
      fun kept member => Assoc.find?_eq_none_iff.mp carried (key, kept) member rfl
    by_cases inside : ∃ version, Holds layers (· ∈ inputs) key version
    · obtain ⟨version, holds⟩ := inside
      rcases winners.covers key version holds with ⟨kept, member⟩ | ⟨winner, isInside, droppable, highest⟩
      · exact absurd member (missing kept)
      · cases left : lookup (inputs.foldl SortedMap.erase layers) key with
        | none =>
          right
          refine ⟨rfl, winner, top_of_all (isInside.mono fun _ _ => trivial) highest ?_, droppable⟩
          intro other outside
          exact absurd (holds_erased.mpr outside) (lookup_eq_none_iff.mp left other)
        | some other =>
          left
          obtain ⟨held, highestOutside⟩ := (lookup_eq_some_iff ordered.erased).mp left
          have outside := holds_erased.mp held
          have above := oldest key winner other droppable isInside highest missing outside
          refine (top_of_all (outside.mono fun _ _ => trivial) ?_ ?_).symm
          · exact fun rival inside => (highest rival inside).trans above.le
          · exact fun rival beside => highestOutside rival (holds_erased.mpr beside)
    · left
      have only : ∀ {version}, Holds layers (fun _ => True) key version → Holds layers (· ∉ inputs) key version := by
        intro version holds
        rcases holds_inside_or_outside holds with held | outside
        · exact absurd ⟨version, held⟩ inside
        · exact outside
      cases left : lookup (inputs.foldl SortedMap.erase layers) key with
      | none =>
        refine (lookup_eq_none_iff.mpr ?_).symm
        intro version holds
        exact lookup_eq_none_iff.mp left version (holds_erased.mpr (only holds))
      | some version =>
        obtain ⟨held, highest⟩ := (lookup_eq_some_iff ordered.erased).mp left
        refine ((lookup_eq_some_iff ordered).mpr ⟨(holds_erased.mp held).mono fun _ _ => trivial, ?_⟩).symm
        intro other present
        exact highest other (holds_erased.mpr (only present))

/-- A merge of all layers has for each key what the stack has, droppable versions
apart. -/
theorem find?_winners_of_all (ordered : Ordered rank layers) (winners : Winners rank layers inputs droppable output)
    (above : ∀ id ∈ layers.keys, id < top) (all : ∀ id ∈ layers.keys, id ∈ inputs) (key : κ) :
    Assoc.find? output key = lookup layers key ∨
      Assoc.find? output key = none ∧ ∃ dropped, lookup layers key = some dropped ∧ droppable dropped := by
  have none : ∀ {key version}, ¬ Holds layers (· ∉ inputs) key version := by
    rintro key version ⟨id, layer, found, outside, _⟩
    exact outside (all id (SortedMap.mem_keys_iff.mpr ⟨layer, found⟩))
  have erased : lookup (inputs.foldl SortedMap.erase layers) key = Option.none :=
    lookup_eq_none_iff.mpr fun version holds => none (holds_erased.mp holds)
  have merged := lookup_merge ordered winners above (fun _ _ _ _ outside => absurd outside none)
    (fun _ _ _ _ _ _ _ outside => absurd outside none) key
  rwa [Layers.merge, lookup_insert_above output (erased_above above), erased, Option.or_none] at merged

end Merge

end Layers

end Enigma
