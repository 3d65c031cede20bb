import Enigma.Engine.ClientRuns

/-! Calls that return errors. A flush takes the segment to delete from the
counter of segments; while that counter is at most one ahead of the segment in
use, no acknowledged write is rolled back. -/

namespace Enigma

namespace Engine

open Prog

/-- Opens, appends and syncs may return errors. -/
def FailingWrites (kind : Call) (fate : Fate) : Prop :=
  fate = .failed → kind = .open ∨ kind = .append ∨ kind = .sync

theorem failingWrites_faults : WriteFaults FailingWrites := fun _ failed => failed rfl

/-- A value of the last acknowledged write to a key or of a later write to it;
nothing only while no write to the key is acknowledged. -/
def NotOlder (issues : List Issue) (key : Key) (held : Option InternalValue) : Prop :=
  (held = none ∧ ∀ issue ∈ issues, issue.key = key → issue.acknowledged = false) ∨
    ∃ earlier issue later, issues = earlier ++ issue :: later ∧ issue.key = key ∧ held = some issue.value ∧
      ∀ other ∈ later, other.key = key → other.acknowledged = false

/-- The engine, while it runs, shows of every key the effect of such a write. -/
def ReadsCurrent (shape : TableShape) (run : Run) : Prop :=
  ∀ engine, run.node.engine = some engine → ∀ key, ∃ held, NotOlder run.issues key held ∧
    get (entryFormat shape) ⟨run.node.disk, engine⟩ key = .ok (held.bind InternalValue.visible)

section

variable {issues : List Issue} {issue : Issue} {key : Key} {held : Option InternalValue}

/-- The last write is either the one that is shown, or it is to another key or
not acknowledged. -/
theorem notOlder_concat_iff : NotOlder (issues ++ [issue]) key held ↔ issue.key = key ∧ held = some issue.value ∨
    (issue.key = key → issue.acknowledged = false) ∧ NotOlder issues key held := by
  constructor
  · intro current
    rcases current with ⟨absent, none⟩ | ⟨earlier, chosen, later, split, same, value, none⟩
    · exact .inr ⟨none issue (by simp), .inl ⟨absent, fun other member => none other (by simp [member])⟩⟩
    · rcases List.eq_nil_or_concat later with empty | ⟨middle, last, ends⟩
      · subst empty
        obtain ⟨_, back⟩ := List.append_inj' split rfl
        cases back
        exact .inl ⟨same, value⟩
      · rw [List.concat_eq_append] at ends
        subst ends
        rw [← List.cons_append, ← List.append_assoc] at split
        obtain ⟨front, back⟩ := List.append_inj' split rfl
        cases back
        refine .inr ⟨none issue (by simp), .inr ⟨earlier, chosen, middle, front, same, value, ?_⟩⟩
        exact fun other member => none other (by simp [member])
  · intro cases
    rcases cases with ⟨same, value⟩ | ⟨harmless, current⟩
    · exact .inr ⟨issues, issue, [], rfl, same, value, by simp⟩
    · have extended : ∀ {later : List Issue}, (∀ other ∈ later, other.key = key → other.acknowledged = false) →
          ∀ other ∈ later ++ [issue], other.key = key → other.acknowledged = false := by
        intro later none other member
        rcases List.mem_append.mp member with earlier | last
        · exact none other earlier
        · exact List.mem_singleton.mp last ▸ harmless
      rcases current with ⟨absent, none⟩ | ⟨earlier, chosen, later, split, same, value, none⟩
      · exact .inl ⟨absent, extended none⟩
      · exact .inr ⟨earlier, chosen, later ++ [issue], by simp [split], same, value, extended none⟩

/-- The values that a read of a key may show, computed. -/
def readable (key : Key) (issues : List Issue) : List (Option InternalValue) :=
  issues.foldl (fun found issue =>
    if issue.key ≠ key then found
    else if issue.acknowledged then [some issue.value]
    else found ++ [some issue.value]) [none]

theorem NotOlder.mem_readable (current : NotOlder issues key held) : held ∈ readable key issues := by
  induction issues using List.reverseRecOn with
  | nil =>
    rcases current with ⟨absent, _⟩ | ⟨earlier, chosen, later, split, _⟩
    · simp [readable, absent]
    · simp at split
  | append_singleton earlier last ih =>
    have step : readable key (earlier ++ [last]) = if last.key ≠ key then readable key earlier
        else if last.acknowledged then [some last.value] else readable key earlier ++ [some last.value] := by
      simp [readable]
    rw [step]
    rcases notOlder_concat_iff.mp current with ⟨same, value⟩ | ⟨harmless, before⟩
    · by_cases acknowledged : last.acknowledged <;> simp [same, value, acknowledged]
    · have member := ih before
      by_cases same : last.key = key
      · simp [same, harmless same, member]
      · simp [same, member]

end

variable {shape : TableShape}

/-- One request keeps reads current. -/
theorem advance_current {run : Run} (tracked : Tracked shape (NotOlder run.issues) run.node) {request : Request}
    {script : Script Call} (valid : request.Valid) (allowed : Allowed FailingWrites script)
    (safe : FlushesTight request run.node) (whole : FindsWhole request run.node) :
    Tracked shape (NotOlder (advance shape run (request, script)).issues)
      (advance shape run (request, script)).node := by
  cases writes : request.write with
  | none =>
    have served := serve_quiet failingWrites_faults allowed tracked valid writes safe whole
    simpa [advance, issued, writes] using served.tracked
  | some write =>
    obtain ⟨key, value, timestamp⟩ := write
    cases running : run.node.engine with
    | none =>
      have idle := serve_write_idle shape script valid running writes
      simpa [advance, issued, writes, running, idle] using tracked
    | some engine =>
      let stored := writtenValue ⟨run.node.disk, engine⟩ value
      have served := serve_write failingWrites_faults allowed tracked valid safe writes running
        (NotOlder (run.issues ++ [⟨key, stored, true⟩])) (NotOlder (run.issues ++ [⟨key, stored, false⟩]))
        (fun probe held different current =>
          notOlder_concat_iff.mpr (.inr ⟨fun same => absurd same.symm different, current⟩))
        (notOlder_concat_iff.mpr (.inl ⟨rfl, rfl⟩))
        (fun _ _ current => notOlder_concat_iff.mpr (.inr ⟨fun _ => rfl, current⟩))
        (fun _ _ current => notOlder_concat_iff.mpr
          ((notOlder_concat_iff.mp current).imp_right fun earlier => ⟨fun _ => rfl, earlier.2⟩))
      have issue : ∀ answer, issued request answer run.node = some ⟨key, stored, answer == .ok⟩ := by
        intro answer
        simp [issued, writes, running, stored, writtenValue]
      have kept := served.tracked
      simp only [advance, answerOf, issue, Option.toList_some]
      split at kept
      · rename_i answer
        simpa [answer] using kept
      · rename_i answer
        simpa [beq_false_of_ne answer] using kept

/-- A run of valid requests in which opens, appends and syncs may fail. -/
def FailingRun (events : List (Request × Script Call)) : Prop :=
  ∀ event ∈ events, event.1.Valid ∧ Allowed FailingWrites event.2

/-- Whenever the run flushes, the counter of segments is at most one ahead. -/
def TightRun (shape : TableShape) : Run → List (Request × Script Call) → Prop
  | _, [] => True
  | run, event :: rest => FlushesTight event.1 run.node ∧ TightRun shape (advance shape run event) rest

instance tightRunDecidable (shape : TableShape) : (run : Run) → (events : List (Request × Script Call)) →
    Decidable (TightRun shape run events)
  | _, [] => .isTrue trivial
  | run, event :: rest =>
    haveI := tightRunDecidable shape (advance shape run event) rest
    inferInstanceAs (Decidable (FlushesTight event.1 run.node ∧ _))

/-- A whole run, from any state that is current. -/
theorem foldl_current {run : Run} (tracked : Tracked shape (NotOlder run.issues) run.node)
    {events : List (Request × Script Call)} (failing : FailingRun events) (tight : TightRun shape run events)
    (whole : OpensWhole shape run events) {before after : List (Request × Script Call)} (split : events = before ++ after) :
    Tracked shape (NotOlder (before.foldl (advance shape) run).issues) (before.foldl (advance shape) run).node := by
  induction before generalizing run events with
  | nil => exact tracked
  | cons first rest ih =>
    subst split
    obtain ⟨valid, allowed⟩ := failing first (by simp)
    have later : FailingRun (rest ++ after) := fun event member => failing event (List.mem_cons_of_mem first member)
    exact ih (advance_current tracked valid allowed tight.1 whole.1) later tight.2 whole.2 rfl

/-- Two flushes, the second one given up when it creates its segment. -/
def failedCreation : List (Request × Script Call) :=
  [(.open restingConfig, .calm), (.put [1] [10] 0, .calm), (.flush, .calm), (.put [1] [20] 0, .calm),
    (.flush, .only 7 .open .failed)]

/-- The flush is repeated and deletes a segment that never was; the old segment
is replayed by the next open. -/
def staleSegment : List (Request × Script Call) :=
  failedCreation ++ [(.flush, .calm), (.put [1] [30] 0, .calm), (.flush, .calm), (.open restingConfig, .calm)]

theorem failingWrites_done (kind : Call) : FailingWrites kind .done := fun failed => by cases failed

theorem failedCreation_failing : FailingRun failedCreation := by
  intro event member
  simp only [failedCreation, List.mem_cons, List.not_mem_nil, or_false] at member
  rcases member with same | same | same | same | same <;> subst same
  · exact ⟨restingConfig_idle, allowed_calm failingWrites_done⟩
  · exact ⟨List.cons_ne_nil _ _, allowed_calm failingWrites_done⟩
  · exact ⟨trivial, allowed_calm failingWrites_done⟩
  · exact ⟨List.cons_ne_nil _ _, allowed_calm failingWrites_done⟩
  · exact ⟨trivial, allowed_only failingWrites_done 7 fun _ => .inl rfl⟩

theorem staleSegment_failing : FailingRun staleSegment := by
  intro event member
  rcases List.mem_append.mp member with earlier | later
  · exact failedCreation_failing event earlier
  · simp only [List.mem_cons, List.not_mem_nil, or_false] at later
    rcases later with same | same | same | same <;> subst same
    · exact ⟨trivial, allowed_calm failingWrites_done⟩
    · exact ⟨List.cons_ne_nil _ _, allowed_calm failingWrites_done⟩
    · exact ⟨trivial, allowed_calm failingWrites_done⟩
    · exact ⟨restingConfig_idle, allowed_calm failingWrites_done⟩

end Engine

end Enigma
