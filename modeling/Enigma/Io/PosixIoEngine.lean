import Enigma.Codec.Encoding
import Mathlib.Data.PNat.Notation

/-! The loops around `write` and `pread`. The operating system may take or give fewer
bytes than asked for, may be interrupted by a signal, or may fail; a schedule says
what it does call by call. A call whose schedule is too short is still in its loop. -/

namespace Enigma

namespace PosixIoEngine

/-- How a system call ends: with some bytes, though never more than are asked for or
are there, with `EINTR`, or with another error and its text. -/
inductive Outcome where
  | count (bytes : ℕ+)
  | interrupted
  | failed (message : String)
  deriving DecidableEq

inductive Progress where
  | returned (result : Except Error Nat)
  | running

def invalidDescriptor : Error := ⟨.fileDescriptorErr, "invalid file descriptor"⟩

/-- The loop of `append`, with the bytes of the file that it writes to. -/
def appendFrom (buffer : Bytes) (bytesWritten : Nat) (file : Bytes) : List Outcome → Progress × Bytes
  | [] => if bytesWritten < buffer.length then (.running, file) else (.returned (.ok bytesWritten), file)
  | outcome :: later =>
    if bytesWritten < buffer.length then
      match outcome with
      | .interrupted => appendFrom buffer bytesWritten file later
      | .failed message => (.returned (.error ⟨.writeErr, message⟩), file)
      | .count most =>
        let data := (buffer.drop bytesWritten).take most
        appendFrom buffer (bytesWritten + data.length) (file ++ data) later
    else (.returned (.ok bytesWritten), file)

def append (fd : Int) (file buffer : Bytes) (schedule : List Outcome) : Progress × Bytes :=
  if fd = -1 then (.returned (.error invalidDescriptor), file) else appendFrom buffer 0 file schedule

/-- `pread` fills a buffer from a position on. -/
def fill (buffer : Bytes) (position : Nat) (data : Bytes) : Bytes :=
  buffer.take position ++ data ++ buffer.drop (position + data.length)

/-- The loop of `read`, with the buffer that it reads into. -/
def readFrom (file : Bytes) (count offset bytesRead : Nat) (buffer : Bytes) : List Outcome → Progress × Bytes
  | [] => if bytesRead < count then (.running, buffer) else (.returned (.ok bytesRead), buffer)
  | outcome :: later =>
    if bytesRead < count then
      match outcome with
      | .interrupted => readFrom file count offset bytesRead buffer later
      | .failed message => (.returned (.error ⟨.readErr, message⟩), buffer)
      | .count most =>
        let data := (readFile file (count - bytesRead) (offset + bytesRead)).take most
        -- no bytes are the end of the file
        if data.length = 0 then (.returned (.ok bytesRead), buffer)
        else readFrom file count offset (bytesRead + data.length) (fill buffer bytesRead data) later
    else (.returned (.ok bytesRead), buffer)

def read (fd : Int) (file : Bytes) (count : Nat) (buffer : Bytes) (offset : Nat) (schedule : List Outcome) :
    Progress × Bytes :=
  if fd = -1 then (.returned (.error invalidDescriptor), buffer) else readFrom file count offset 0 buffer schedule

/-- The system calls of a schedule that bring a loop on. -/
def effective (schedule : List Outcome) : Nat := schedule.countP (· ≠ .interrupted)

theorem effective_cons {outcome : Outcome} (later : List Outcome) (brings : outcome ≠ .interrupted) :
    effective (outcome :: later) = effective later + 1 := by
  rw [effective, List.countP_cons_of_pos (by simpa using brings)]
  rfl

theorem effective_interrupted (later : List Outcome) : effective (.interrupted :: later) = effective later :=
  List.countP_cons_of_neg (by simp)

/-- The errors of a loop: one of its system calls fails, and its text is passed on. -/
def FailedCall (code : ErrorCode) (schedule : List Outcome) (error : Error) : Prop :=
  ∃ message, .failed message ∈ schedule ∧ error = ⟨code, message⟩

theorem FailedCall.cons {code : ErrorCode} {later : List Outcome} {error : Error} (outcome : Outcome)
    (failed : FailedCall code later error) : FailedCall code (outcome :: later) error := by
  obtain ⟨message, called, text⟩ := failed
  exact ⟨message, List.mem_cons_of_mem _ called, text⟩

/-- The errors of a call, which makes no system call without a descriptor. -/
def Refused (fd : Int) (code : ErrorCode) (schedule : List Outcome) (error : Error) : Prop :=
  if fd = -1 then error = invalidDescriptor else FailedCall code schedule error

/-- All the bytes once and in order, or some of the first and an error with a cause. A
call that is still in its loop has had fewer system calls that brought it on than there
are bytes. -/
def Appended (start buffer : Bytes) (errors : Error → Prop) (calls : Nat) : Progress × Bytes → Prop
  | (.returned (.ok count), file) => count = buffer.length ∧ file = start ++ buffer
  | (.returned (.error error), file) => errors error ∧ ∃ written, file = start ++ buffer.take written
  | (.running, file) => calls < buffer.length ∧ ∃ written, file = start ++ buffer.take written

theorem Appended.weaken {start buffer : Bytes} {errors causes : Error → Prop} {calls more : Nat}
    {ended : Progress × Bytes} (appended : Appended start buffer errors more ended)
    (caused : ∀ error, errors error → causes error) (fewer : calls ≤ more) :
    Appended start buffer causes calls ended := by
  obtain ⟨progress, file⟩ := ended
  cases progress with
  | returned result =>
    cases result with
    | ok count => exact appended
    | error error => exact ⟨caused error appended.1, appended.2⟩
  | running => exact ⟨Nat.lt_of_le_of_lt fewer appended.1, appended.2⟩

/-- A system call moves on by what it takes. -/
theorem take_advance (bytes : Bytes) (position most : Nat) :
    bytes.take position ++ (bytes.drop position).take most =
      bytes.take (position + ((bytes.drop position).take most).length) := by
  have taken : (bytes.drop position).take ((bytes.drop position).take most).length =
      (bytes.drop position).take most := by
    rw [List.take_eq_take_iff, List.length_take]
    omega
  rw [List.take_add, taken]

/-- The loop from any point of it. -/
theorem appendFrom_appended {start buffer : Bytes} {bytesWritten : Nat} (inside : bytesWritten ≤ buffer.length)
    (schedule : List Outcome) :
    Appended start buffer (FailedCall .writeErr schedule) (bytesWritten + effective schedule)
      (appendFrom buffer bytesWritten (start ++ buffer.take bytesWritten) schedule) := by
  induction schedule generalizing bytesWritten with
  | nil =>
    unfold appendFrom
    by_cases unfinished : bytesWritten < buffer.length
    · rw [if_pos unfinished]
      exact ⟨unfinished, bytesWritten, rfl⟩
    · rw [if_neg unfinished, List.take_of_length_le (Nat.le_of_not_lt unfinished)]
      exact ⟨by omega, rfl⟩
  | cons outcome later ih =>
    unfold appendFrom
    by_cases unfinished : bytesWritten < buffer.length
    · rw [if_pos unfinished]
      cases outcome with
      | interrupted =>
        rw [effective_interrupted]
        exact (ih inside).weaken (fun _ => FailedCall.cons _) le_rfl
      | failed message => exact ⟨⟨message, List.mem_cons_self, rfl⟩, bytesWritten, rfl⟩
      | count most =>
        have positive := most.pos
        have moved : 0 < ((buffer.drop bytesWritten).take most).length := by
          rw [List.length_take, List.length_drop]
          omega
        have within : bytesWritten + ((buffer.drop bytesWritten).take most).length ≤ buffer.length := by
          rw [List.length_take, List.length_drop]
          omega
        have further := ih within
        rw [← take_advance, ← List.append_assoc] at further
        refine further.weaken (fun _ => FailedCall.cons _) ?_
        rw [effective_cons later Outcome.noConfusion]
        omega
    · rw [if_neg unfinished, List.take_of_length_le (Nat.le_of_not_lt unfinished)]
      exact ⟨by omega, rfl⟩

theorem append_appended (fd : Int) (file buffer : Bytes) (schedule : List Outcome) :
    Appended file buffer (Refused fd .writeErr schedule) (effective schedule) (append fd file buffer schedule) := by
  unfold append
  by_cases closed : fd = -1
  · rw [if_pos closed]
    exact ⟨(if_pos closed).mpr rfl, 0, (List.append_nil file).symm⟩
  · rw [if_neg closed]
    have whole := @appendFrom_appended file buffer 0 (Nat.zero_le _) schedule
    rw [List.take_zero, List.append_nil, Nat.zero_add] at whole
    exact whole.weaken (fun _ failed => (if_neg closed).mpr failed) le_rfl

/-- As many bytes as asked for, or as the file has from the offset on, and behind them
what the buffer had before. -/
def Received (file : Bytes) (count offset : Nat) (before : Bytes) (errors : Error → Prop) (calls : Nat) :
    Progress × Bytes → Prop
  | (.returned (.ok received), buffer) => received = min count (file.length - offset) ∧
      buffer = (file.drop offset).take received ++ before.drop received
  | (.returned (.error error), buffer) =>
      errors error ∧ ∃ received, buffer = (file.drop offset).take received ++ before.drop received
  | (.running, _) => calls ≤ min count (file.length - offset)

theorem Received.weaken {file before : Bytes} {errors causes : Error → Prop} {count offset calls more : Nat}
    {ended : Progress × Bytes} (received : Received file count offset before errors more ended)
    (caused : ∀ error, errors error → causes error) (fewer : calls ≤ more) :
    Received file count offset before causes calls ended := by
  obtain ⟨progress, buffer⟩ := ended
  cases progress with
  | returned result =>
    cases result with
    | ok count => exact received
    | error error => exact ⟨caused error received.1, received.2⟩
  | running => exact fewer.trans received

theorem fill_advance {source before data : Bytes} {position : Nat} (inside : position ≤ source.length) :
    fill (source.take position ++ before.drop position) position data =
      source.take position ++ data ++ before.drop (position + data.length) := by
  have size : (source.take position).length = position := by rw [List.length_take, min_eq_left inside]
  rw [fill, List.take_left' size, List.drop_append, size, List.drop_of_length_le (by omega), List.nil_append,
    Nat.add_sub_cancel_left, List.drop_drop]

theorem readFrom_received {file before : Bytes} {count offset bytesRead : Nat}
    (inside : bytesRead ≤ min count (file.length - offset)) (schedule : List Outcome) :
    Received file count offset before (FailedCall .readErr schedule) (bytesRead + effective schedule)
      (readFrom file count offset bytesRead ((file.drop offset).take bytesRead ++ before.drop bytesRead) schedule) := by
  induction schedule generalizing bytesRead with
  | nil =>
    unfold readFrom
    by_cases unfinished : bytesRead < count
    · rw [if_pos unfinished]
      exact inside
    · rw [if_neg unfinished]
      exact ⟨by omega, rfl⟩
  | cons outcome later ih =>
    unfold readFrom
    by_cases unfinished : bytesRead < count
    · rw [if_pos unfinished]
      cases outcome with
      | interrupted =>
        rw [effective_interrupted]
        exact (ih inside).weaken (fun _ => FailedCall.cons _) le_rfl
      | failed message => exact ⟨⟨message, List.mem_cons_self, rfl⟩, bytesRead, rfl⟩
      | count most =>
        have source : (readFile file (count - bytesRead) (offset + bytesRead)).take most =
            ((file.drop offset).drop bytesRead).take (min most (count - bytesRead)) := by
          rw [readFile, List.drop_drop, List.take_take]
        have size : (file.drop offset).length = file.length - offset := List.length_drop
        have length : (((file.drop offset).drop bytesRead).take (min most (count - bytesRead))).length =
            min (min (most : Nat) (count - bytesRead)) (file.length - offset - bytesRead) := by
          rw [List.length_take, List.length_drop, size]
        have positive := most.pos
        simp only [source]
        by_cases ended : (((file.drop offset).drop bytesRead).take (min most (count - bytesRead))).length = 0
        · rw [if_pos ended]
          exact ⟨by omega, rfl⟩
        · rw [if_neg ended, fill_advance (by omega), take_advance]
          refine (ih (by omega)).weaken (fun _ => FailedCall.cons _) ?_
          rw [effective_cons later Outcome.noConfusion]
          omega
    · rw [if_neg unfinished]
      exact ⟨by omega, rfl⟩

theorem read_received (fd : Int) (file before : Bytes) (count offset : Nat) (schedule : List Outcome) :
    Received file count offset before (Refused fd .readErr schedule) (effective schedule)
      (read fd file count before offset schedule) := by
  unfold read
  by_cases closed : fd = -1
  · rw [if_pos closed]
    exact ⟨(if_pos closed).mpr rfl, 0, rfl⟩
  · rw [if_neg closed]
    have whole := @readFrom_received file before count offset 0 (Nat.zero_le _) schedule
    rw [List.take_zero, List.drop_zero, List.nil_append, Nat.zero_add] at whole
    exact whole.weaken (fun _ failed => (if_neg closed).mpr failed) le_rfl

/-- What the readers of tables and of the log take a read into a resized buffer for. -/
theorem read_into {fd : Int} {file old buffer : Bytes} {count offset received : Nat} {schedule : List Outcome}
    (returned : read fd file count ((old ++ List.replicate count 0).take count) offset schedule =
      (.returned (.ok received), buffer)) : buffer = readInto old file count offset := by
  have whole := read_received fd file ((old ++ List.replicate count 0).take count) count offset schedule
  rw [returned] at whole
  obtain ⟨size, contents⟩ := whole
  have found : (file.drop offset).take received = readFile file count offset := by
    rw [readFile, List.take_eq_take_iff, List.length_drop]
    omega
  have length : received = (readFile file count offset).length := by
    rw [readFile, List.length_take, List.length_drop]
    exact size
  rw [contents, found, readInto, ← length]

theorem retries_transfer_exactly (fd : Int) (file buffer target : Bytes) (count offset : Nat)
    (writes reads : List Outcome) :
    Appended file buffer (Refused fd .writeErr writes) (effective writes) (append fd file buffer writes) ∧
      Received file count offset target (Refused fd .readErr reads) (effective reads)
        (read fd file count target offset reads) :=
  ⟨append_appended fd file buffer writes, read_received fd file target count offset reads⟩

end PosixIoEngine

end Enigma
