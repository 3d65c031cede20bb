import Enigma.Compaction.MergeIterator

/-! What the engine needs to know of a table file: which contents it passes
through while it is written, whether the reader accepts it, and what the reader
and the iterator make of it. `entryFormat` takes a table as the entry list it
was written from. -/

namespace Enigma

/-- The footer fields that the engine reads. -/
structure TableInfo where
  sizeBytes : Nat
  entryCount : Nat
  highestSequence : Nat
  deriving DecidableEq, Repr

structure TableFormat (F : Type) where
  /-- Contents after the writer, made for so many keys, has opened the file. -/
  opened : Nat → List Entry → F
  /-- Contents after each append of the writer. -/
  appended : Nat → List Entry → List F
  create : F → Except Error TableInfo
  get : F → Key → Except Error (Option InternalValue)
  blockCount : F → Nat
  /-- What an iterator delivers when the reads of some blocks fail. -/
  scan : F → (Nat → Option Error) → Cursor

/-- The file as the writer leaves it. -/
def TableFormat.complete {F : Type} (format : TableFormat F) (estimatedKeys : Nat) (entries : List Entry) : F :=
  (format.appended estimatedKeys entries).getLast?.getD (format.opened estimatedKeys entries)

def highestSequence (entries : List Entry) : Nat := entries.foldl (fun highest entry => max highest entry.2.sequence) 0

theorem highestSequence_lt {entries : List Entry} {bound : Nat} (positive : 0 < bound)
    (sequences : ∀ entry ∈ entries, entry.2.sequence < bound) : highestSequence entries < bound := by
  have general : ∀ (rest : List Entry) (start : Nat), start < bound → (∀ entry ∈ rest, entry.2.sequence < bound) →
      rest.foldl (fun highest entry => max highest entry.2.sequence) start < bound := by
    intro rest
    induction rest with
    | nil => exact fun _ below _ => below
    | cons entry later ih =>
      intro start below each
      exact ih _ (max_lt below (each entry (by simp))) fun other member => each other (by simp [member])
  exact general entries 0 positive sequences

/-- A table file whose bytes are left out: incomplete, with the error that the
reader answers, or complete, with what it was written from. -/
inductive EntryFile where
  | torn (answer : Error)
  | whole (estimatedKeys : Nat) (entries : List Entry)
  deriving DecidableEq

/-- What the entry list leaves open of a table's encoding. -/
structure TableShape where
  sizeBytes : Nat → List Entry → Nat
  /-- The reader's answers to the incomplete contents that the writer passes
  through. None when a table is written in one step. -/
  tornAnswers : Nat → List Entry → List Error
  blocks : List Entry → List (List Entry)
  blocks_flatten : ∀ entries, (blocks entries).flatten = entries
  blocks_nil : blocks [] = []

namespace TableShape

/-- Tables of one block, whose size counts entries, written in one step. -/
def plain : TableShape where
  sizeBytes _ entries := entries.length
  tornAnswers _ _ := []
  blocks
    | [] => []
    | entry :: later => [entry :: later]
  blocks_flatten entries := by cases entries <;> simp
  blocks_nil := rfl

/-- The same tables, written in two steps: at first the file is empty. -/
def twoStep : TableShape :=
  { plain with tornAnswers := fun _ _ => [⟨.badConfig, "file too small for SSTable"⟩] }

variable (shape : TableShape)

def contents (estimatedKeys : Nat) (entries : List Entry) : List EntryFile :=
  (shape.tornAnswers estimatedKeys entries).map .torn ++ [.whole estimatedKeys entries]

/-- Blocks are read in order; the first one that cannot be read ends the scan.
So does an empty one, but without an error. -/
def scanBlocks (failure : Nat → Option Error) : Nat → List (List Entry) → Cursor
  | _, [] => ⟨[], none⟩
  | index, block :: later =>
    match failure index with
    | some error => ⟨[], some error⟩
    | none =>
      if block = [] then ⟨[], none⟩
      else
        let rest := scanBlocks failure (index + 1) later
        ⟨block ++ rest.rest, rest.failure⟩

/-- What an iterator delivers of a table when all its blocks can be read. -/
def delivered (entries : List Entry) : List Entry := ((shape.blocks entries).takeWhile (· ≠ [])).flatten

end TableShape

open TableShape in
def entryFormat (shape : TableShape) : TableFormat EntryFile where
  opened estimatedKeys entries := (shape.contents estimatedKeys entries).headD (.whole estimatedKeys entries)
  appended estimatedKeys entries := (shape.contents estimatedKeys entries).tail
  create
    | .torn answer => .error answer
    | .whole estimatedKeys entries =>
      -- the filter for no keys has no bits
      if estimatedKeys = 0 then .error ⟨.badConfig, "invalid filter block size"⟩
      else .ok ⟨shape.sizeBytes estimatedKeys entries, entries.length, highestSequence entries⟩
  get
    | .torn answer, _ => .error answer
    | .whole _ entries, key => .ok (Assoc.find? entries key)
  blockCount
    | .torn _ => 0
    | .whole _ entries => (shape.blocks entries).length
  scan
    | .torn _, _ => ⟨[], none⟩
    | .whole _ entries, failure => scanBlocks failure 0 (shape.blocks entries)

section

variable (shape : TableShape)

theorem entryFormat_complete (estimatedKeys : Nat) (entries : List Entry) :
    (entryFormat shape).complete estimatedKeys entries = .whole estimatedKeys entries := by
  simp only [TableFormat.complete, entryFormat, TableShape.contents]
  cases (shape.tornAnswers estimatedKeys entries).map EntryFile.torn with
  | nil => rfl
  | cons first later => simp

/-- Before its last append a file is not yet a table. -/
theorem entryFormat_stage {estimatedKeys : Nat} {entries : List Entry} {file : EntryFile}
    (stage : file = (entryFormat shape).opened estimatedKeys entries ∨
      file ∈ (entryFormat shape).appended estimatedKeys entries) :
    (∃ answer, file = .torn answer) ∨ file = .whole estimatedKeys entries := by
  have member : file ∈ shape.contents estimatedKeys entries := by
    simp only [entryFormat] at stage
    cases contents : shape.contents estimatedKeys entries with
    | nil => simp [TableShape.contents] at contents
    | cons first later =>
      rw [contents] at stage
      exact List.mem_cons.mpr stage
  simp only [TableShape.contents, List.mem_append, List.mem_map, List.mem_singleton] at member
  rcases member with ⟨answer, _, same⟩ | whole
  · exact .inl ⟨answer, same.symm⟩
  · exact .inr whole

theorem entryFormat_create_whole {estimatedKeys : Nat} (entries : List Entry) (positive : estimatedKeys ≠ 0) :
    (entryFormat shape).create (.whole estimatedKeys entries) =
      .ok ⟨shape.sizeBytes estimatedKeys entries, entries.length, highestSequence entries⟩ := by
  simp only [entryFormat, positive, ↓reduceIte]

theorem entryFormat_create_zero (entries : List Entry) :
    (entryFormat shape).create (.whole 0 entries) = .error ⟨.badConfig, "invalid filter block size"⟩ :=
  rfl

theorem entryFormat_create_ok {file : EntryFile} {info : TableInfo}
    (accepted : (entryFormat shape).create file = .ok info) :
    ∃ estimatedKeys entries, file = .whole estimatedKeys entries ∧ estimatedKeys ≠ 0 := by
  cases file with
  | torn answer => cases accepted
  | whole estimatedKeys entries =>
    refine ⟨estimatedKeys, entries, rfl, ?_⟩
    intro zero
    rw [zero, entryFormat_create_zero] at accepted
    cases accepted

theorem TableShape.scanBlocks_calm (index : Nat) (blocks : List (List Entry)) :
    scanBlocks (fun _ => none) index blocks = ⟨(blocks.takeWhile (· ≠ [])).flatten, none⟩ := by
  induction blocks generalizing index with
  | nil => rfl
  | cons block later ih => by_cases empty : block = [] <;> simp [scanBlocks, ih, empty]

/-- With every block readable the scan delivers the table up to its first empty
block. -/
theorem entryFormat_scan_calm (estimatedKeys : Nat) (entries : List Entry) :
    (entryFormat shape).scan (.whole estimatedKeys entries) (fun _ => none) = ⟨shape.delivered entries, none⟩ :=
  TableShape.scanBlocks_calm 0 (shape.blocks entries)

theorem TableShape.delivered_sublist (entries : List Entry) : (shape.delivered entries).Sublist entries := by
  have whole : shape.delivered entries ++ ((shape.blocks entries).dropWhile (· ≠ [])).flatten = entries := by
    rw [TableShape.delivered, ← List.flatten_append, List.takeWhile_append_dropWhile, shape.blocks_flatten]
  have front := List.sublist_append_left (shape.delivered entries) ((shape.blocks entries).dropWhile (· ≠ [])).flatten
  rwa [whole] at front

end

end Enigma
