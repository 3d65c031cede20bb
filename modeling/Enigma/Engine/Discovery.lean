import Enigma.Engine.ByteTables
import Enigma.Engine.Reopening
import Enigma.Foundation.TiedSort
import Enigma.Storage.FileNames
import Mathlib.Data.Set.List

/-! How `open` finds its files again. The engine makes a path from a number whenever it
touches a file; only `open` and `recover` go the other way, from the names that a directory
lists, in whatever order, to the numbers. -/

namespace Enigma

open FileName

/-- What an iterator over a directory shows of one file. -/
structure DirEntry (C : Type) where
  name : FileName
  isRegularFile : Bool
  content : C

namespace FileName

/-- `fs::path::extension`: from the last dot on, unless the name begins with it. -/
def extension (name : FileName) : FileName :=
  let ext := (name.reverse.takeWhile (· ≠ '.')).reverse
  if name.length ≤ ext.length + 1 ∨ name = ['.', '.'] then [] else '.' :: ext

theorem extension_append {front ext : FileName} (filled : front ≠ []) (undotted : '.' ∉ ext) (named : ext ≠ []) :
    extension (front ++ '.' :: ext) = '.' :: ext := by
  have back : ((front ++ '.' :: ext).reverse.takeWhile (· ≠ '.')).reverse = ext := by
    have plain : ∀ c ∈ ext.reverse, decide (c ≠ '.') = true := by
      intro c member
      exact decide_eq_true fun same => undotted (same ▸ List.mem_reverse.mp member)
    rw [List.reverse_append, List.reverse_cons, List.append_assoc, List.takeWhile_append_of_pos plain]
    simp
  have long : ¬ ((front ++ '.' :: ext).length ≤ ext.length + 1 ∨ front ++ '.' :: ext = ['.', '.']) := by
    have before := List.length_pos_iff.mpr filled
    have after := List.length_pos_iff.mpr named
    rintro (short | dots)
    · simp only [List.length_append, List.length_cons] at short
      omega
    · have size := congrArg List.length dots
      simp only [List.length_append, List.length_cons, List.length_nil] at size
      omega
  rw [extension, back, if_neg long]

end FileName

/-- The two loops over a directory keep the files with an extension. -/
def listed {C : Type} (ext : FileName) (listing : List (DirEntry C)) : List (DirEntry C) :=
  listing.filter fun entry => entry.isRegularFile ∧ extension entry.name = ext

/-- The numbers of the files, in the order of the listing. `extract_num` may throw. -/
def numberedFiles {C : Type} (entries : List (DirEntry C)) : Option (List (Nat × C)) :=
  entries.mapM fun entry => (extractNum entry.name).map fun number => (number, entry.content)

/-- How the files of one directory are named. -/
structure Naming where
  nameOf : Nat → FileName
  ext : FileName
  extension_eq : ∀ n, extension (nameOf n) = ext
  extractNum_eq : ∀ n, extractNum (nameOf n) = if n < 2 ^ 63 then some n else none
  injective : Function.Injective nameOf

namespace Naming

theorem word_injective {word ext : FileName} : Function.Injective fun n => word ++ setw8 n ++ ext := by
  intro n other same
  exact setw8_injective (List.append_cancel_left (List.append_cancel_right same))

theorem word_extension (word ext : FileName) (n : Nat) (undotted : '.' ∉ ext) (named : ext ≠ []) :
    extension (word ++ setw8 n ++ '.' :: ext) = '.' :: ext :=
  extension_append (List.append_ne_nil_of_right_ne_nil _ (setw8_isNumeral n).1) undotted named

def tables : Naming where
  nameOf := sstableFilename
  ext := ['.', 'd', 'b']
  extension_eq n := word_extension ['s', 's', 't', '_'] ['d', 'b'] n (by decide) (by decide)
  extractNum_eq := extractNum_sstableFilename
  injective := word_injective

def segments : Naming where
  nameOf := walFilename
  ext := ['.', 'l', 'o', 'g']
  extension_eq n := word_extension ['w', 'a', 'l', '_'] ['l', 'o', 'g'] n (by decide) (by decide)
  extractNum_eq := extractNum_walFilename
  injective := word_injective

/-- The entry that a listing has for the file of a number. -/
def entryOf {C : Type} (naming : Naming) (binding : Nat × C) : DirEntry C :=
  ⟨naming.nameOf binding.1, true, binding.2⟩

theorem entryOf_injective {C : Type} (naming : Naming) : Function.Injective (naming.entryOf (C := C)) := by
  intro binding other same
  have names : naming.nameOf binding.1 = naming.nameOf other.1 := congrArg DirEntry.name same
  exact Prod.ext (naming.injective names) (congrArg DirEntry.content same)

end Naming

section

variable {C : Type} {naming : Naming} {files : FileName → Option C} {numbers : SortedMap Nat C}
variable {listing : List (DirEntry C)}

/-- A directory that has the files of the numbers, and no others with their extension. -/
structure Named (naming : Naming) (files : FileName → Option C) (numbers : SortedMap Nat C) : Prop where
  shown : ∀ n, files (naming.nameOf n) = numbers.find? n
  only : ∀ name content, files name = some content → extension name = naming.ext → ∃ n, name = naming.nameOf n

/-- A listing of the directory, which shows each name once. -/
structure Lists (listing : List (DirEntry C)) (files : FileName → Option C) : Prop where
  nodup : listing.Nodup
  regular : ∀ name content, files name = some content ↔ ⟨name, true, content⟩ ∈ listing

theorem lists_none : Lists [] (fun _ => none : FileName → Option C) :=
  ⟨List.nodup_nil, fun _ _ => iff_of_false (by simp) (by simp)⟩

theorem Lists.put (lists : Lists listing files) (name : FileName) (content : C) (fresh : files name = none) :
    Lists (⟨name, true, content⟩ :: listing) (Function.update files name (some content)) := by
  constructor
  · refine List.nodup_cons.mpr ⟨fun member => ?_, lists.nodup⟩
    rw [← lists.regular, fresh] at member
    cases member
  · intro probe found
    rw [List.mem_cons, ← lists.regular, Function.update_apply]
    split
    · rename_i same
      simp [same, fresh, eq_comm]
    · rename_i other
      simp [other]

theorem Named.mem_listed (named : Named naming files numbers) (lists : Lists listing files) {entry : DirEntry C} :
    entry ∈ listed naming.ext listing ↔ ∃ binding ∈ numbers.bindings, naming.entryOf binding = entry := by
  rw [listed, List.mem_filter, decide_eq_true_eq]
  constructor
  · rintro ⟨member, regular, ext⟩
    obtain ⟨name, isRegular, content⟩ := entry
    cases regular
    have there := (lists.regular name content).mpr member
    obtain ⟨n, rfl⟩ := named.only name content there ext
    exact ⟨(n, content), SortedMap.find?_eq_some_iff.mp ((named.shown n).symm.trans there), rfl⟩
  · rintro ⟨⟨n, content⟩, bound, rfl⟩
    have there := (named.shown n).trans (SortedMap.find?_eq_some_iff.mpr bound)
    exact ⟨(lists.regular _ _).mp there, rfl, naming.extension_eq n⟩

theorem numberedFiles_entries {bindings : List (Nat × C)} (small : ∀ binding ∈ bindings, binding.1 < 2 ^ 63) :
    numberedFiles (bindings.map naming.entryOf) = some bindings := by
  induction bindings with
  | nil => rfl
  | cons binding later ih =>
    have rest := ih fun other member => small other (List.mem_cons_of_mem _ member)
    rw [List.map_cons, numberedFiles, List.mapM_cons, Naming.entryOf, naming.extractNum_eq,
      if_pos (small binding (List.mem_cons_self ..))]
    change (numberedFiles (later.map naming.entryOf)).bind _ = _
    rw [rest]
    rfl

theorem SortedMap.bindings_nodup (numbers : SortedMap Nat C) : numbers.bindings.Nodup :=
  numbers.ascending.imp fun below same => absurd (congrArg Prod.fst same) below.ne

/-- Whatever the order of the listing, it has the entries of the files. -/
theorem Named.listed_perm (named : Named naming files numbers) (lists : Lists listing files) :
    (listed naming.ext listing).Perm (numbers.bindings.map naming.entryOf) := by
  have distinct : (listed naming.ext listing).Nodup := lists.nodup.filter _
  refine (List.perm_ext_iff_of_nodup distinct ?_).mpr fun entry => ?_
  · exact (SortedMap.bindings_nodup numbers).map naming.entryOf_injective
  · rw [named.mem_listed lists, List.mem_map]

theorem Named.found (named : Named naming files numbers) (lists : Lists listing files)
    (small : ∀ n ∈ numbers.keys, n < 2 ^ 63) :
    ∃ found, numberedFiles (listed naming.ext listing) = some found ∧ found.Perm numbers.bindings := by
  have perm := named.listed_perm lists
  obtain ⟨found, same⟩ : listed naming.ext listing ∈ Set.range (List.map naming.entryOf) := by
    rw [Set.range_list_map]
    intro entry member
    obtain ⟨binding, -, same⟩ := (named.mem_listed lists).mp member
    exact ⟨binding, same⟩
  rw [← same, List.map_perm_map_iff naming.entryOf_injective] at perm
  refine ⟨found, ?_, perm⟩
  rw [← same]
  exact numberedFiles_entries fun binding member => small _ (List.mem_map_of_mem (perm.mem_iff.mp member))

theorem numberedFiles_eq_none {entries : List (DirEntry C)} {entry : DirEntry C} (member : entry ∈ entries)
    (thrown : extractNum entry.name = none) : numberedFiles entries = none := by
  induction entries with
  | nil => cases member
  | cons first later ih =>
    rw [numberedFiles, List.mapM_cons]
    rcases List.mem_cons.mp member with rfl | inside
    · rw [thrown]
      rfl
    · change ((extractNum first.name).map _).bind (fun number => (numberedFiles later).bind _) = none
      rw [ih inside]
      cases extractNum first.name <;> rfl

/-- `extract_num` throws out of `open` when a number is no `long long`, and only then. -/
theorem Named.found_iff (named : Named naming files numbers) (lists : Lists listing files) :
    (numberedFiles (listed naming.ext listing)).isSome ↔ ∀ n ∈ numbers.keys, n < 2 ^ 63 := by
  constructor
  · intro some n key
    by_contra large
    obtain ⟨content, found⟩ := SortedMap.mem_keys_iff.mp key
    have inside := (named.mem_listed lists).mpr ⟨(n, content), SortedMap.find?_eq_some_iff.mp found, rfl⟩
    have thrown : extractNum (naming.nameOf n) = none := by rw [naming.extractNum_eq, if_neg large]
    rw [numberedFiles_eq_none inside thrown] at some
    cases some
  · intro small
    obtain ⟨found, counted, -⟩ := named.found lists small
    rw [counted]
    rfl

theorem Named.put (named : Named naming files numbers) (n : Nat) (content : C) :
    Named naming (Function.update files (naming.nameOf n) (some content)) (numbers.insert n content) := by
  constructor
  · intro other
    rw [SortedMap.find?_insert]
    by_cases same : other = n
    · rw [same, Function.update_self, if_pos rfl]
    · rw [Function.update_of_ne (naming.injective.ne same), if_neg same, named.shown]
  · intro name found there ext
    by_cases same : name = naming.nameOf n
    · exact ⟨n, same⟩
    · rw [Function.update_of_ne same] at there
      exact named.only name found there ext

theorem Named.drop (named : Named naming files numbers) (n : Nat) :
    Named naming (Function.update files (naming.nameOf n) none) (numbers.erase n) := by
  constructor
  · intro other
    rw [SortedMap.find?_erase]
    by_cases same : other = n
    · rw [same, Function.update_self, if_pos rfl]
    · rw [Function.update_of_ne (naming.injective.ne same), if_neg same, named.shown]
  · intro name found there ext
    by_cases same : name = naming.nameOf n
    · rw [same, Function.update_self] at there
      cases there
    · rw [Function.update_of_ne same] at there
      exact named.only name found there ext

/-- What someone else does to a file with another extension does not matter. -/
theorem Named.foreign (named : Named naming files numbers) {name : FileName} (other : extension name ≠ naming.ext)
    (content : Option C) : Named naming (Function.update files name content) numbers := by
  constructor
  · intro n
    have different : naming.nameOf n ≠ name := fun same => other (same ▸ naming.extension_eq n)
    rw [Function.update_of_ne different, named.shown]
  · intro probe found there ext
    have different : probe ≠ name := fun same => other (same ▸ ext)
    rw [Function.update_of_ne different] at there
    exact named.only probe found there ext

end

/-- The regular files under the data directory by their names. -/
structure DataDir (F : Type) where
  sst : FileName → Option F
  wal : FileName → Option (List WalRecord)

/-- Every way in which the engine changes the directory, and what others may do to it. -/
inductive DirChange (F : Type) where
  | putTable (id : SSTableId) (file : F)
  | dropTable (id : SSTableId)
  | openWal (seq : Nat)
  | appendWal (seq : Nat) (record : WalRecord)
  | dropWal (seq : Nat)
  | foreignTable (name : FileName) (file : Option F) (other : extension name ≠ ['.', 'd', 'b'])
  | foreignSegment (name : FileName) (records : Option (List WalRecord)) (other : extension name ≠ ['.', 'l', 'o', 'g'])

namespace DataDir

variable {F : Type} {dir : DataDir F} {disk : Disk F}

def empty : DataDir F := ⟨fun _ => none, fun _ => none⟩

/-- A change goes by the path that is made from the number. -/
def change (dir : DataDir F) : DirChange F → DataDir F
  | .putTable id file => { dir with sst := Function.update dir.sst (sstableFilename id) (some file) }
  | .dropTable id => { dir with sst := Function.update dir.sst (sstableFilename id) none }
  | .openWal seq =>
    match dir.wal (walFilename seq) with
    | some _ => dir
    | none => { dir with wal := Function.update dir.wal (walFilename seq) (some []) }
  | .appendWal seq record =>
    match dir.wal (walFilename seq) with
    | some records => { dir with wal := Function.update dir.wal (walFilename seq) (some (records ++ [record])) }
    | none => dir
  | .dropWal seq => { dir with wal := Function.update dir.wal (walFilename seq) none }
  | .foreignTable name file _ => { dir with sst := Function.update dir.sst name file }
  | .foreignSegment name records _ => { dir with wal := Function.update dir.wal name records }

/-- The same change by number. -/
def changeDisk (disk : Disk F) : DirChange F → Disk F
  | .putTable id file => disk.putTable id file
  | .dropTable id => disk.dropTable id
  | .openWal seq => disk.openWal seq
  | .appendWal seq record => disk.appendWal seq record
  | .dropWal seq => disk.dropWal seq
  | .foreignTable _ _ _ => disk
  | .foreignSegment _ _ _ => disk

structure Mirrors (dir : DataDir F) (disk : Disk F) : Prop where
  sst : Named .tables dir.sst disk.sst
  wal : Named .segments dir.wal disk.wal

theorem mirrors_empty : Mirrors (empty : DataDir F) .empty where
  sst := ⟨fun _ => rfl, fun _ _ there => nomatch there⟩
  wal := ⟨fun _ => rfl, fun _ _ there => nomatch there⟩

theorem Mirrors.change (mirrors : Mirrors dir disk) (act : DirChange F) :
    Mirrors (dir.change act) (changeDisk disk act) := by
  have shown : ∀ seq, dir.wal (walFilename seq) = disk.wal.find? seq := mirrors.wal.shown
  cases act with
  | putTable id file => exact ⟨mirrors.sst.put id file, mirrors.wal⟩
  | dropTable id => exact ⟨mirrors.sst.drop id, mirrors.wal⟩
  | openWal seq =>
    simp only [DataDir.change, changeDisk, Disk.openWal, shown seq]
    cases disk.wal.find? seq with
    | none => exact ⟨mirrors.sst, mirrors.wal.put seq []⟩
    | some records => exact mirrors
  | appendWal seq record =>
    simp only [DataDir.change, changeDisk, Disk.appendWal, shown seq]
    cases disk.wal.find? seq with
    | none => exact mirrors
    | some records => exact ⟨mirrors.sst, mirrors.wal.put seq _⟩
  | dropWal seq => exact ⟨mirrors.sst, mirrors.wal.drop seq⟩
  | foreignTable name file other => exact ⟨mirrors.sst.foreign other file, mirrors.wal⟩
  | foreignSegment name records other => exact ⟨mirrors.sst, mirrors.wal.foreign other records⟩

/-- However often files come and go, the names stay those of the numbers. -/
theorem Mirrors.run (mirrors : Mirrors dir disk) (acts : List (DirChange F)) :
    Mirrors (acts.foldl DataDir.change dir) (acts.foldl changeDisk disk) := by
  induction acts generalizing dir disk with
  | nil => exact mirrors
  | cons act later ih => exact ih (mirrors.change act)

end DataDir

namespace Prog

variable {Call ε σ ρ α β : Type}

theorem bind_run_congr {first other : Prog Call ε σ α} {next : α → Prog Call ε σ β} {script : Script Call} {state : σ}
    (same : first.run script state = other.run script state) :
    (first >>= next).run script state = (other >>= next).run script state := by
  change (Prog.bind first next).run script state = (Prog.bind other next).run script state
  simp only [Prog.bind, same]

theorem nested_run_congr {enter other : σ → ρ} {leave : ρ → σ} {prog also : Prog Call ε ρ α} {script : Script Call}
    {state : σ} (entered : enter state = other state)
    (same : prog.run script (enter state) = also.run script (enter state)) :
    (nested enter leave prog).run script state = (nested other leave also).run script state := by
  simp only [nested, ← entered, same]

end Prog

namespace Engine

open Prog

section

variable {F : Type} (format : TableFormat F)

/-- `std::map::insert`, which leaves what is there. -/
def insertMeta (found : SortedMap SSTableId SSTableMeta) (table : SSTableMeta) : SortedMap SSTableId SSTableMeta :=
  match found.find? table.id with
  | some _ => found
  | none => found.insert table.id table

/-- `recover` once it has its list of segments. -/
def recoverFrom (oldWalFiles : List (Nat × List WalRecord)) : Prog Call Error (World F) Nat :=
  if oldWalFiles = [] then return 0
  else do
    let highestWalLsnSequence ← replaySegments oldWalFiles 0
    flushRecovered format
    forEach oldWalFiles fun segment => onDisk .fsRemove (Disk.dropWal segment.1)
    onEngine fun engine => { engine with lsn := max engine.lsn highestWalLsnSequence + 1 }
    return highestWalLsnSequence

/-- `Dazzle::open` with what it and `recover` find: the tables in the order in which the
directory lists them, the segments, and the older segments after sorting. -/
def openListed (config : Config) (tables : List (SSTableId × F)) (segments oldWalFiles : List (Nat × List WalRecord)) :
    Prog Call Error (Disk F) Dazzle := do
  let metas ← mapEach (tables.map Prod.fst) (readMeta format)
  call .open (Call.error .open) (Disk.openWal (highestOf (segments.map Prod.fst) + 1))
  let recovered ← nested (fun disk => World.mk disk
    { bootstrap config (segments.map Prod.fst) (tables.map Prod.fst) metas with
      versionSet := .new (metas.foldl insertMeta .empty) }) World.disk (recoverFrom format oldWalFiles)
  return recovered.2.engine

theorem highestOf_perm {numbers others : List Nat} (perm : numbers.Perm others) :
    highestOf numbers = highestOf others :=
  perm.foldl_eq' (fun _ _ _ _ _ => max_right_comm _ _ _) 0

theorem recover_run (script : Script Call) (world : World F) : (recover format).run script world =
    (recoverFrom format (world.disk.wal.bindings.filter fun segment =>
      segment.1 < world.engine.nextWalSeq)).run script world := by
  rw [recover, bind_run_ok (getState_run _ _)]
  rfl

theorem highestOf_lt {numbers : List Nat} {bound : Nat} (positive : 0 < bound)
    (below : ∀ number ∈ numbers, number < bound) : highestOf numbers < bound :=
  List.foldlRecOn (motive := fun highest => highest < bound) numbers max positive
    fun _ small number member => max_lt small (below number member)

theorem insertMetas_find? {value : SSTableId → SSTableMeta} (named : ∀ id, (value id).id = id) (ids : List SSTableId)
    (found : SortedMap SSTableId SSTableMeta) (probe : SSTableId) :
    ((ids.map value).foldl insertMeta found).find? probe =
      (found.find? probe).or (if probe ∈ ids then some (value probe) else none) := by
  induction ids generalizing found with
  | nil => simp
  | cons id later ih =>
    rw [List.map_cons, List.foldl_cons, ih, insertMeta, named]
    by_cases same : probe = id
    · subst same
      cases there : found.find? probe <;> simp [there]
    · cases there : found.find? id <;> simp [same]

theorem insertMany_metas_find? {value : SSTableId → SSTableMeta} (named : ∀ id, (value id).id = id)
    (ids : List SSTableId) (found : SortedMap SSTableId SSTableMeta) (probe : SSTableId) :
    (found.insertMany ((ids.map value).map fun table => (table.id, table))).find? probe =
      if probe ∈ ids then some (value probe) else found.find? probe := by
  induction ids generalizing found with
  | nil => rfl
  | cons id later ih =>
    refine (ih (found.insert (value id).id (value id))).trans ?_
    rw [SortedMap.find?_insert, named]
    by_cases same : probe = id
    · simp [same]
    · simp [same]

/-- The order in which the tables are listed does not show in the engine. -/
theorem bootstrap_perm {value : SSTableId → SSTableMeta} (named : ∀ id, (value id).id = id) (config : Config)
    {segments numbers : List Nat} (sameSegments : segments.Perm numbers) {ids keys : List SSTableId}
    (sameTables : ids.Perm keys) :
    { bootstrap config segments ids (ids.map value) with
      versionSet := .new ((ids.map value).foldl insertMeta .empty) } =
        bootstrap config numbers keys (keys.map value) := by
  have files : (ids.map value).foldl insertMeta .empty =
      SortedMap.empty.insertMany ((keys.map value).map fun table => (table.id, table)) := by
    apply SortedMap.ext_find?
    intro probe
    rw [insertMetas_find? named, insertMany_metas_find? named, SortedMap.find?_empty, Option.none_or]
    exact if_congr sameTables.mem_iff rfl rfl
  rw [files]
  simp only [bootstrap, highestOf_perm sameSegments, highestOf_perm sameTables,
    highestOf_perm ((sameTables.map value).map SSTableMeta.maxSequence)]

variable {format} in
/-- Only a directory whose tables are all accepted is opened. -/
theorem metas_accepted {disk : Disk F} {ids : List SSTableId} {metas : List SSTableMeta} {rest : Script Call}
    {after : Disk F} (inside : ∀ id ∈ ids, id ∈ disk.sst.keys)
    (read : (mapEach ids (readMeta format)).run .calm disk = (.ok metas, rest, after)) :
    ∀ id ∈ ids, ∃ info, (readMeta format id).run .calm disk = (.ok (tableMeta id info), .calm, disk) := by
  induction ids generalizing metas rest after with
  | nil => simp
  | cons id further ih =>
    obtain ⟨table, left, between, first, others⟩ := bind_returned read
    obtain ⟨file, present⟩ := SortedMap.mem_keys_iff.mp (inside id (List.mem_cons_self ..))
    rw [readMeta_calm format present] at first
    cases accepted : format.create file with
    | error error => simp [accepted] at first
    | ok info =>
      simp only [accepted, Prod.mk.injEq] at first
      obtain ⟨-, rfl, rfl⟩ := first
      obtain ⟨tables, left, between, later, -⟩ := bind_returned others
      intro other member
      rcases List.mem_cons.mp member with rfl | deeper
      · exact ⟨info, by rw [readMeta_calm format present, accepted]⟩
      · exact ih (fun known listed => inside known (List.mem_cons_of_mem _ listed)) later other deeper

variable {format} in
theorem openListed_run {disk : Disk F} {value : SSTableId → SSTableMeta} (named : ∀ id, (value id).id = id)
    (reads : ∀ id ∈ disk.sst.keys, (readMeta format id).run .calm disk = (.ok (value id), .calm, disk))
    (config : Config) {tables : List (SSTableId × F)} {segments oldWalFiles : List (Nat × List WalRecord)}
    (sameTables : tables.Perm disk.sst.bindings) (sameSegments : segments.Perm disk.wal.bindings)
    (old : oldWalFiles = (disk.openWal (highestOf disk.wal.keys + 1)).wal.bindings.filter fun segment =>
      segment.1 < highestOf disk.wal.keys + 1) :
    (openListed format config tables segments oldWalFiles).run .calm disk =
      (Engine.open format config).run .calm disk := by
  have ids : (tables.map Prod.fst).Perm disk.sst.keys := sameTables.map Prod.fst
  have numbers : (segments.map Prod.fst).Perm disk.wal.keys := sameSegments.map Prod.fst
  have listedReads := mapEach_run disk fun id member => reads id (ids.mem_iff.mp member)
  have direct : (Engine.open format config).run .calm disk =
      (call .open (Call.error .open) (Disk.openWal (highestOf disk.wal.keys + 1)) >>= fun _ =>
        nested (fun after => World.mk after (bootstrap config disk.wal.keys after.sst.keys (disk.sst.keys.map value)))
          World.disk (recover format) >>= fun recovered => pure recovered.2.engine).run .calm disk :=
    (bind_run_ok (getState_run _ _)).trans (bind_run_ok (mapEach_run disk reads))
  rw [direct, openListed, bind_run_ok listedReads, highestOf_perm numbers, bootstrap_perm named config numbers ids]
  rw [bind_run_ok (call_run_done _ _ _ rfl), bind_run_ok (call_run_done _ _ _ rfl)]
  refine bind_run_congr (nested_run_congr ?_ ?_)
  · rw [Disk.openWal_sst]
  · rw [recover_run, old]
    rfl


/-- On any listing of the directory, the names that the engine gives to its files, however
often it makes and removes them, lead back to their numbers and to nothing else; and `open`,
with the tables read in the order of the listing, ends as the `open` that goes by number. -/
theorem open_finds_its_files (config : Config) (acts : List (DirChange F)) {tables : List (DirEntry F)}
    {before again : List (DirEntry (List WalRecord))}
    (listsTables : Lists tables (acts.foldl DataDir.change .empty).sst)
    (listsBefore : Lists before (acts.foldl DataDir.change .empty).wal)
    (listsAgain : Lists again ((acts.foldl DataDir.change .empty).change
      (.openWal (highestOf (acts.foldl DataDir.changeDisk .empty).wal.keys + 1))).wal)
    (smallIds : ∀ id ∈ (acts.foldl DataDir.changeDisk .empty).sst.keys, id < 2 ^ 63)
    (smallSeqs : ∀ seq ∈ (acts.foldl DataDir.changeDisk .empty).wal.keys, seq + 1 < 2 ^ 63) :
    ∃ found segments all, numberedFiles (listed ['.', 'd', 'b'] tables) = some found ∧
      numberedFiles (listed ['.', 'l', 'o', 'g'] before) = some segments ∧
      numberedFiles (listed ['.', 'l', 'o', 'g'] again) = some all ∧
      found.Perm (acts.foldl DataDir.changeDisk .empty).sst.bindings ∧
      segments.Perm (acts.foldl DataDir.changeDisk .empty).wal.bindings ∧
      all.Perm ((acts.foldl DataDir.changeDisk .empty).openWal
        (highestOf (acts.foldl DataDir.changeDisk .empty).wal.keys + 1)).wal.bindings ∧
      ∀ oldWalFiles, TiedSort.SortsTo (fun left right => left.1 ≤ right.1)
          (all.filter fun segment => segment.1 < highestOf (segments.map Prod.fst) + 1) oldWalFiles →
        ∀ engine after, (openListed format config found segments oldWalFiles).run .calm
            (acts.foldl DataDir.changeDisk .empty) = (.ok engine, .calm, after) ↔
          (Engine.open format config).run .calm (acts.foldl DataDir.changeDisk .empty) =
            (.ok engine, .calm, after) := by
  have mirrors := DataDir.mirrors_empty.run acts
  generalize acts.foldl DataDir.change .empty = dir at *
  generalize acts.foldl DataDir.changeDisk .empty = disk at *
  have mirrorsAgain := mirrors.change (.openWal (highestOf disk.wal.keys + 1))
  have smallAgain : ∀ seq ∈ (disk.openWal (highestOf disk.wal.keys + 1)).wal.keys, seq < 2 ^ 63 := by
    intro seq key
    obtain ⟨records, there⟩ := SortedMap.mem_keys_iff.mp key
    rw [Disk.openWal_find?] at there
    split at there
    · rename_i same
      rw [same]
      exact Nat.lt_of_lt_of_eq (Nat.add_lt_add_right (highestOf_lt (show 0 < 2 ^ 63 - 1 by decide) fun number member =>
        Nat.lt_sub_of_add_lt (smallSeqs number member)) 1) (by decide)
    · exact (Nat.lt_succ_self seq).trans (smallSeqs seq (SortedMap.mem_keys_iff.mpr ⟨records, there⟩))
  obtain ⟨found, tablesFound, sameTables⟩ := mirrors.sst.found listsTables smallIds
  obtain ⟨segments, segmentsFound, sameSegments⟩ := mirrors.wal.found listsBefore fun seq key =>
    (Nat.lt_succ_self seq).trans (smallSeqs seq key)
  obtain ⟨all, allFound, sameAll⟩ := mirrorsAgain.wal.found listsAgain smallAgain
  refine ⟨found, segments, all, tablesFound, segmentsFound, allFound, sameTables, sameSegments, sameAll,
    fun oldWalFiles sorts engine after => ?_⟩
  have old : oldWalFiles = (disk.openWal (highestOf disk.wal.keys + 1)).wal.bindings.filter fun segment =>
      segment.1 < highestOf disk.wal.keys + 1 := by
    rw [highestOf_perm (show (segments.map Prod.fst).Perm disk.wal.keys from sameSegments.map Prod.fst)] at sorts
    refine sorts.unique ⟨List.Perm.refl _, ?_⟩ (sameAll.filter _) ?_
    · refine (disk.openWal (highestOf disk.wal.keys + 1)).wal.ascending.imp ?_ |>.filter _
      exact fun below => below.le
    · intro left leftMember right rightMember leftLe rightLe
      have leftBound := sameAll.mem_iff.mp (List.mem_filter.mp leftMember).1
      have rightBound := sameAll.mem_iff.mp (List.mem_filter.mp rightMember).1
      have same : left.1 = right.1 := le_antisymm leftLe rightLe
      have found := SortedMap.find?_eq_some_iff.mpr leftBound
      rw [same, SortedMap.find?_eq_some_iff.mpr rightBound] at found
      exact Prod.ext same (Option.some.inj found).symm
  have ids : ∀ id, id ∈ found.map Prod.fst ↔ id ∈ disk.sst.keys := fun _ => (sameTables.map Prod.fst).mem_iff
  have agree : (∀ id ∈ disk.sst.keys, ∃ info, (readMeta format id).run .calm disk =
      (.ok (tableMeta id info), .calm, disk)) → (openListed format config found segments oldWalFiles).run .calm disk =
        (Engine.open format config).run .calm disk := by
    intro accepted
    have each : ∀ id, ∃ info, id ∈ disk.sst.keys → (readMeta format id).run .calm disk =
        (.ok (tableMeta id info), .calm, disk) := by
      intro id
      by_cases key : id ∈ disk.sst.keys
      · exact (accepted id key).imp fun info read _ => read
      · exact ⟨⟨0, 0, 0⟩, fun inside => absurd inside key⟩
    choose info reads using each
    exact openListed_run (fun _ => rfl) reads config sameTables sameSegments old
  constructor
  · intro opened
    obtain ⟨metas, left, between, read, -⟩ := bind_returned opened
    have accepted := metas_accepted (fun id member => (ids id).mp member) read
    rw [← agree fun id key => accepted id ((ids id).mpr key), opened]
  · intro opened
    obtain ⟨world, script, state, entered, rest⟩ := bind_returned opened
    cases entered
    obtain ⟨metas, left, between, read, -⟩ := bind_returned rest
    rw [agree (metas_accepted (fun _ member => member) read), opened]

end

/-- Two segments that the directory lists the wrong way round. -/
theorem open_finds_its_files_two_segments :
    ∃ segments all, numberedFiles (listed ['.', 'l', 'o', 'g'] [⟨walFilename 2, true, []⟩, ⟨walFilename 1, true, []⟩]) =
        some segments ∧
      numberedFiles (listed ['.', 'l', 'o', 'g']
        [⟨walFilename 3, true, []⟩, ⟨walFilename 2, true, []⟩, ⟨walFilename 1, true, []⟩]) = some all ∧
      ∀ oldWalFiles, TiedSort.SortsTo (fun left right => left.1 ≤ right.1)
          (all.filter fun segment => segment.1 < highestOf (segments.map Prod.fst) + 1) oldWalFiles →
        ∃ engine after, (openListed (byteFormat nominalSizing) ⟨1000, fullCompactionPolicy⟩ [] segments
          oldWalFiles).run .calm (([.openWal 1, .openWal 2] : List (DirChange Bytes)).foldl DataDir.changeDisk .empty) =
            (.ok engine, .calm, after) := by
  have one := (lists_none (C := List WalRecord)).put (walFilename 1) [] rfl
  have two := one.put (walFilename 2) [] (by decide)
  have three := two.put (walFilename 3) [] (by decide)
  obtain ⟨found, segments, all, tables, before, again, -, -, -, opened⟩ := open_finds_its_files (byteFormat nominalSizing)
    ⟨1000, fullCompactionPolicy⟩ [.openWal 1, .openWal 2] lists_none two three (by decide) (by decide)
  cases tables
  refine ⟨segments, all, before, again, fun oldWalFiles sorts => ⟨_, _, (opened oldWalFiles sorts _ _).mpr rfl⟩⟩

end Engine

end Enigma
