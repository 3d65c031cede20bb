import Mathlib.Algebra.Order.Ring.Int
import Mathlib.Algebra.Order.Ring.Nat
import Mathlib.Data.List.TakeWhile

/-! The names of table files and log segments. Both are made from a number, and reading the
directory takes the number out of the name again. -/

namespace Enigma

/-- The characters of a file name, or of a path. -/
abbrev FileName := List Char

namespace FileName

/-- A number as a stream prints it after `setfill('0')` and `setw(8)`. -/
def setw8 (n : Nat) : FileName := (Nat.toDigits 10 n).leftpad 8 '0'

def walFilename (seq : Nat) : FileName := ['w', 'a', 'l', '_'] ++ setw8 seq ++ ['.', 'l', 'o', 'g']

def sstableFilename (id : Nat) : FileName := ['s', 's', 't', '_'] ++ setw8 id ++ ['.', 'd', 'b']

/-- Where `data_dir` has the table of a number. -/
def sstPath (dataDir : FileName) (seq : Nat) : FileName := dataDir ++ ['/', 's', 's', 't', '/'] ++ sstableFilename seq

def find (needle : Char) (text : FileName) : Option Nat := text.findIdx? (· = needle)

def isSpace (c : Char) : Bool := c = ' ' ∨ '\t'.toNat ≤ c.toNat ∧ c.toNat ≤ '\r'.toNat

/-- Whether a text begins with a minus sign, and what comes after its sign. -/
def sign : FileName → Bool × FileName
  | [] => (false, [])
  | c :: rest => if c = '-' then (true, rest) else (false, if c = '+' then rest else c :: rest)

/-- `std::stoll`. It takes the digits at the beginning and ignores what comes after them;
it throws when there are none, and when the number is no `long long`. -/
def stoll (text : FileName) : Option Int :=
  let (negative, unsigned) := sign (text.dropWhile isSpace)
  let digits := unsigned.takeWhile Char.isDigit
  let value : Int := Nat.ofDigitChars 10 digits 0
  let signed := if negative then -value else value
  if digits = [] then none
  else if -2 ^ 63 ≤ signed ∧ signed < 2 ^ 63 then some signed else none

/-- What `extract_num` takes for the number. Without an underscore the position after it
wraps to zero; a length below zero wraps to more than there is. -/
def numberPart (filename : FileName) : FileName :=
  let start := ((find '_' filename).map (· + 1)).getD 0
  match find '.' filename with
  | none => filename.drop start
  | some stop => if start ≤ stop then (filename.drop start).take (stop - start) else filename.drop start

def extractNum (filename : FileName) : Option Nat :=
  (stoll (numberPart filename)).map fun number => (number % 2 ^ 64).toNat

def isSlash (c : Char) : Bool := c = '/' ∨ c = '\\'

/-- The path without the directories. -/
def basename (path : FileName) : FileName := (path.reverse.takeWhile fun c => !isSlash c).reverse

/-- `std::from_chars` for 64 bits without a sign: the number and what comes after its digits. -/
def fromChars (text : FileName) : Option (Nat × FileName) :=
  let digits := text.takeWhile Char.isDigit
  let value := Nat.ofDigitChars 10 digits 0
  if digits = [] then none else if value < 2 ^ 64 then some (value, text.dropWhile Char.isDigit) else none

def parseSstableFilename (path : FileName) : Nat :=
  let filename := basename path
  if filename.length ≤ 7 ∨ filename.take 4 ≠ ['s', 's', 't', '_'] ∨
      filename.drop (filename.length - 3) ≠ ['.', 'd', 'b'] then 0
  else
    match fromChars ((filename.drop 4).take (filename.length - 7)) with
    | some (value, []) => value
    | _ => 0

def IsNumeral (text : FileName) : Prop := text ≠ [] ∧ ∀ c ∈ text, c.isDigit = true

theorem setw8_isNumeral (n : Nat) : IsNumeral (setw8 n) := by
  have zero : '0'.isDigit = true := by decide
  refine ⟨?_, fun c member => ?_⟩
  · simp [setw8, List.leftpad, Nat.toDigits_ne_nil]
  · simp only [setw8, List.leftpad, List.mem_append, List.mem_replicate] at member
    rcases member with ⟨-, rfl⟩ | digit
    · exact zero
    · exact Nat.isDigit_of_mem_toDigits (by decide) (by decide) digit

/-- The zeros in front do not change the number. -/
@[simp] theorem ofDigitChars_setw8 (n : Nat) : Nat.ofDigitChars 10 (setw8 n) 0 = n := by
  rw [setw8, List.leftpad, Nat.ofDigitChars_append, Nat.ofDigitChars_replicate_zero, Nat.mul_zero,
    Nat.ofDigitChars_ten_toDigits]

theorem setw8_injective {n other : Nat} (same : setw8 n = setw8 other) : n = other := by
  rw [← ofDigitChars_setw8 n, same, ofDigitChars_setw8]

variable {text front : FileName}

theorem IsNumeral.takeWhile (numeral : IsNumeral text) : text.takeWhile Char.isDigit = text :=
  List.takeWhile_eq_self_iff.mpr numeral.2

theorem IsNumeral.dropWhile (numeral : IsNumeral text) : text.dropWhile Char.isDigit = [] :=
  List.dropWhile_eq_nil_iff.mpr numeral.2

theorem not_isSpace_of_isDigit {c : Char} (digit : c.isDigit = true) : isSpace c = false := by
  obtain ⟨least, -⟩ := Char.isDigit_iff_toNat.mp digit
  refine decide_eq_false ?_
  rintro (rfl | ⟨-, small⟩)
  · exact absurd digit (by decide)
  · exact absurd (least.trans small) (by decide)

theorem IsNumeral.not_mem (numeral : IsNumeral text) {c : Char} (other : c.isDigit = false) : c ∉ text := by
  intro member
  rw [numeral.2 c member] at other
  cases other

theorem IsNumeral.sign_eq (numeral : IsNumeral text) : sign (text.dropWhile isSpace) = (false, text) := by
  cases text with
  | nil => exact absurd rfl numeral.1
  | cons c rest =>
    have digit := numeral.2 c (List.mem_cons_self ..)
    have plus : c ≠ '+' := fun same => absurd (same ▸ digit) (by decide)
    have minus : c ≠ '-' := fun same => absurd (same ▸ digit) (by decide)
    rw [List.dropWhile_cons_of_neg (by simp [not_isSpace_of_isDigit digit]), sign, if_neg minus, if_neg plus]

theorem IsNumeral.stoll_eq (numeral : IsNumeral text) :
    stoll text = if Nat.ofDigitChars 10 text 0 < 2 ^ 63 then some (Nat.ofDigitChars 10 text 0 : Int) else none := by
  simp only [stoll, numeral.sign_eq, numeral.takeWhile, if_neg numeral.1, Bool.false_eq_true, ↓reduceIte]
  refine if_congr ?_ rfl rfl
  omega

theorem find_append {needle : Char} (absent : needle ∉ front) (back : FileName) :
    find needle (front ++ needle :: back) = some front.length := by
  have none : front.findIdx? (· = needle) = none := by
    rw [List.findIdx?_eq_none_iff]
    intro c member
    exact decide_eq_false fun same => absent (same ▸ member)
  simp [find, List.findIdx?_append, List.findIdx?_cons, none]

/-- A name of the engine: a word, the number between an underscore and a dot, and the extension. -/
theorem numberPart_eq {word number ext : FileName} (numeral : IsNumeral number) (unscored : '_' ∉ word)
    (undotted : '.' ∉ word) : numberPart (word ++ '_' :: (number ++ '.' :: ext)) = number := by
  have dot : '.' ∉ word ++ '_' :: number := by
    simp [undotted, numeral.not_mem (show '.'.isDigit = false by decide)]
  have stop : find '.' (word ++ '_' :: (number ++ '.' :: ext)) = some (word.length + 1 + number.length) := by
    have found := find_append dot ext
    rw [List.append_assoc, List.cons_append] at found
    rw [found, List.length_append, List.length_cons, Nat.add_assoc, Nat.add_comm number.length]
  have skip : (word ++ '_' :: (number ++ '.' :: ext)).drop (word.length + 1) = number ++ '.' :: ext := by
    rw [← List.drop_drop, List.drop_left, List.drop_one, List.tail_cons]
  simp only [numberPart, find_append unscored, stop, Option.map_some, Option.getD_some]
  rw [if_pos (Nat.le_add_right _ _), skip, Nat.add_sub_cancel_left, List.take_left]

theorem extractNum_eq (word ext : FileName) (n : Nat) (unscored : '_' ∉ word) (undotted : '.' ∉ word) :
    extractNum (word ++ '_' :: (setw8 n ++ '.' :: ext)) = if n < 2 ^ 63 then some n else none := by
  rw [extractNum, numberPart_eq (setw8_isNumeral n) unscored undotted, (setw8_isNumeral n).stoll_eq, ofDigitChars_setw8]
  by_cases small : n < 2 ^ 63
  · rw [if_pos small, if_pos small, Option.map_some, Int.emod_eq_of_lt (by omega) (by omega), Int.toNat_natCast]
  · rw [if_neg small, if_neg small, Option.map_none]

/-- `extract_num` throws for the numbers that are no `long long`. -/
theorem extractNum_walFilename (seq : Nat) :
    extractNum (walFilename seq) = if seq < 2 ^ 63 then some seq else none := by
  have named := extractNum_eq ['w', 'a', 'l'] ['l', 'o', 'g'] seq (by decide) (by decide)
  simpa [walFilename] using named

theorem extractNum_sstableFilename (id : Nat) :
    extractNum (sstableFilename id) = if id < 2 ^ 63 then some id else none := by
  have named := extractNum_eq ['s', 's', 't'] ['d', 'b'] id (by decide) (by decide)
  simpa [sstableFilename] using named

/-- What may stand before a file name in a path. -/
def IsDirectory (directory : FileName) : Prop :=
  directory = [] ∨ ∃ parent slash, isSlash slash = true ∧ directory = parent ++ [slash]

theorem basename_append {directory name : FileName} (leads : IsDirectory directory)
    (plain : ∀ c ∈ name, isSlash c = false) : basename (directory ++ name) = name := by
  have kept : ∀ c ∈ name.reverse, (!isSlash c) = true := by
    intro c member
    rw [plain c (List.mem_reverse.mp member), Bool.not_false]
  rw [basename, List.reverse_append, List.takeWhile_append_of_pos kept, List.reverse_append, List.reverse_reverse]
  rcases leads with rfl | ⟨parent, slash, slashes, rfl⟩
  · rfl
  · rw [List.reverse_concat, List.takeWhile_cons_of_neg (by rw [slashes]; decide), List.reverse_nil, List.nil_append]

theorem exists_basename (path : FileName) : ∃ directory, IsDirectory directory ∧ path = directory ++ basename path := by
  refine ⟨(path.reverse.dropWhile fun c => !isSlash c).reverse, ?_, ?_⟩
  · cases left : path.reverse.dropWhile fun c => !isSlash c with
    | nil => exact .inl rfl
    | cons slash parent =>
      have stopped := List.head?_dropWhile_not (fun c => !isSlash c) path.reverse
      rw [left] at stopped
      exact .inr ⟨parent.reverse, slash, by simpa using stopped, List.reverse_cons⟩
  · rw [basename, ← List.reverse_append, List.takeWhile_append_dropWhile, List.reverse_reverse]

theorem middle_split {name : FileName} (long : 7 ≤ name.length) :
    name = name.take 4 ++ (name.drop 4).take (name.length - 7) ++ name.drop (name.length - 3) := by
  have rest : name.drop (name.length - 3) = (name.drop 4).drop (name.length - 7) := by
    rw [List.drop_drop]
    congr 1
    omega
  rw [rest, List.append_assoc, List.take_append_drop, List.take_append_drop]

theorem fromChars_eq_some_iff {number : FileName} {value : Nat} :
    fromChars number = some (value, []) ↔ IsNumeral number ∧ Nat.ofDigitChars 10 number 0 = value ∧ value < 2 ^ 64 := by
  constructor
  · intro taken
    simp only [fromChars] at taken
    split at taken
    · cases taken
    · rename_i filled
      split at taken
      · rename_i small
        obtain ⟨value, ended⟩ := Prod.mk.inj (Option.some.inj taken)
        have digits := List.dropWhile_eq_nil_iff.mp ended
        have all := List.takeWhile_eq_self_iff.mpr digits
        rw [all] at filled value small
        exact ⟨⟨filled, digits⟩, value, value ▸ small⟩
      · cases taken
  · rintro ⟨numeral, rfl, small⟩
    rw [fromChars, numeral.takeWhile, numeral.dropWhile, if_neg numeral.1, if_pos small]

theorem parseSstableFilename_append {directory number : FileName} (leads : IsDirectory directory)
    (numeral : IsNumeral number) :
    parseSstableFilename (directory ++ (['s', 's', 't', '_'] ++ number ++ ['.', 'd', 'b'])) =
      if Nat.ofDigitChars 10 number 0 < 2 ^ 64 then Nat.ofDigitChars 10 number 0 else 0 := by
  have plain : ∀ c ∈ ['s', 's', 't', '_'] ++ number ++ ['.', 'd', 'b'], isSlash c = false := by
    intro c member
    rw [List.mem_append, List.mem_append] at member
    rcases member with (word | digit) | ext
    · exact List.all_eq_true.mp (show ['s', 's', 't', '_'].all (isSlash · = false) by decide) c word |> of_decide_eq_true
    · refine decide_eq_false ?_
      rintro (rfl | rfl)
      · exact numeral.not_mem (by decide) digit
      · exact numeral.not_mem (by decide) digit
    · exact List.all_eq_true.mp (show ['.', 'd', 'b'].all (isSlash · = false) by decide) c ext |> of_decide_eq_true
  have positive : 0 < number.length := List.length_pos_iff.mpr numeral.1
  have size : (['s', 's', 't', '_'] ++ number ++ ['.', 'd', 'b']).length = number.length + 7 := by
    simp only [List.length_append, List.length_cons, List.length_nil]
    omega
  have last : (['s', 's', 't', '_'] ++ number ++ ['.', 'd', 'b']).drop (number.length + 7 - 3) = ['.', 'd', 'b'] := by
    rw [show number.length + 7 - 3 = (['s', 's', 't', '_'] ++ number).length by simp, List.drop_left]
  have middle : ((['s', 's', 't', '_'] ++ number ++ ['.', 'd', 'b']).drop 4).take (number.length + 7 - 7) = number := by
    rw [List.append_assoc, Nat.add_sub_cancel]
    exact List.take_left
  have named : ¬ (number.length + 7 ≤ 7 ∨
      (['s', 's', 't', '_'] ++ number ++ ['.', 'd', 'b']).take 4 ≠ ['s', 's', 't', '_'] ∨
      ['.', 'd', 'b'] ≠ ['.', 'd', 'b']) := by
    rintro (short | other | other)
    · omega
    · exact other rfl
    · exact other rfl
  simp only [parseSstableFilename, basename_append leads plain, size, last, middle]
  rw [if_neg named]
  by_cases small : Nat.ofDigitChars 10 number 0 < 2 ^ 64
  · rw [fromChars_eq_some_iff.mpr ⟨numeral, rfl, small⟩, if_pos small]
  · rw [fromChars, numeral.takeWhile, if_neg numeral.1, if_neg small, if_neg small]

/-- Anything but a numeral that fits into 64 bits, with the right word before it and the
right extension after it, is read as zero. -/
theorem parseSstableFilename_eq_iff {path : FileName} {id : Nat} (nonzero : id ≠ 0) :
    parseSstableFilename path = id ↔ id < 2 ^ 64 ∧ ∃ directory number, IsDirectory directory ∧ IsNumeral number ∧
      Nat.ofDigitChars 10 number 0 = id ∧ path = directory ++ (['s', 's', 't', '_'] ++ number ++ ['.', 'd', 'b']) := by
  constructor
  · intro parsed
    obtain ⟨directory, leads, split⟩ := exists_basename path
    simp only [parseSstableFilename] at parsed
    split at parsed
    · exact absurd parsed.symm nonzero
    · rename_i named
      obtain ⟨long, word, ext⟩ : 7 < (basename path).length ∧ (basename path).take 4 = ['s', 's', 't', '_'] ∧
          (basename path).drop ((basename path).length - 3) = ['.', 'd', 'b'] := by
        simpa only [not_or, not_le, not_not] using named
      split at parsed
      · rename_i value taken
        obtain ⟨numeral, valued, small⟩ := fromChars_eq_some_iff.mp taken
        refine ⟨parsed ▸ small, directory, _, leads, numeral, valued.trans parsed, ?_⟩
        rw [← word, ← ext, ← middle_split long.le, ← split]
      · exact absurd parsed.symm nonzero
  · rintro ⟨small, directory, number, leads, numeral, rfl, rfl⟩
    rw [parseSstableFilename_append leads numeral, if_pos small]

/-- Every table of the engine is known by its path again, and a path is taken for that of a
table only when it names it by a numeral. -/
theorem table_paths_parse_exactly (id : UInt64) :
    (∀ dataDir, parseSstableFilename (sstPath dataDir id.toNat) = id.toNat) ∧
      (id ≠ 0 → ∀ path, parseSstableFilename path = id.toNat ↔ ∃ directory number, IsDirectory directory ∧
        IsNumeral number ∧ Nat.ofDigitChars 10 number 0 = id.toNat ∧
          path = directory ++ (['s', 's', 't', '_'] ++ number ++ ['.', 'd', 'b'])) := by
  constructor
  · intro dataDir
    have leads : IsDirectory (dataDir ++ ['/', 's', 's', 't', '/']) :=
      .inr ⟨dataDir ++ ['/', 's', 's', 't'], '/', by decide, by simp⟩
    rw [sstPath, sstableFilename, parseSstableFilename_append leads (setw8_isNumeral _), ofDigitChars_setw8,
      if_pos id.toNat_lt]
  · intro nonzero path
    have positive : id.toNat ≠ 0 := fun zero => nonzero (UInt64.toNat_inj.mp zero)
    rw [parseSstableFilename_eq_iff positive]
    exact and_iff_right id.toNat_lt

/-- Leading zeros make no difference. -/
theorem table_paths_parse_exactly_seven :
    parseSstableFilename ['d', 'b', '/', 's', 's', 't', '_', '0', '7', '.', 'd', 'b'] = 7 :=
  ((table_paths_parse_exactly 7).2 (by decide) _).mpr
    ⟨['d', 'b', '/'], ['0', '7'], .inr ⟨['d', 'b'], '/', by decide, rfl⟩, ⟨by decide, List.all_eq_true.mp rfl⟩,
      by decide, rfl⟩

end FileName

end Enigma
