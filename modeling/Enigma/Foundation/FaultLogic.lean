import Mathlib.Data.List.Forall2
import Mathlib.Logic.Basic

/-! Programs whose I/O calls may succeed, return an error, or never return
because the process dies. The environment is a script that decides the coming
calls one by one; a weakest precondition quantifies over every script that a
fault policy allows. -/

namespace Enigma

/-- How one I/O call ends: it takes effect, it returns an error and has no
effect, or the process dies before it takes effect. -/
inductive Fate where
  | done
  | failed
  | crashed
  deriving DecidableEq, Repr

inductive Exit (ε α : Type) where
  | ok (value : α)
  | err (error : ε)
  | crash
  deriving DecidableEq, Repr

/-- One decision for each coming call, by kind of call. -/
def Script (Call : Type) := Nat → Call → Fate

namespace Script

variable {Call : Type}

/-- The script for the calls after the next one. -/
def tail (script : Script Call) : Script Call := fun index => script (index + 1)

/-- Every call succeeds. -/
def calm : Script Call := fun _ _ => .done

/-- Every call of a kind meets the same fate. -/
def always (fate : Call → Fate) : Script Call := fun _ => fate

/-- The call of this number meets the given fate if it is of this kind; every
other call succeeds. -/
def only [DecidableEq Call] (number : Nat) (kind : Call) (fate : Fate) : Script Call := fun index other =>
  if index = number ∧ other = kind then fate else .done

end Script

structure Prog (Call ε σ α : Type) where
  run : Script Call → σ → Exit ε α × Script Call × σ

namespace Prog

variable {Call ε σ ρ α β γ : Type}

protected def pure (value : α) : Prog Call ε σ α := ⟨fun script state => (.ok value, script, state)⟩

protected def bind (first : Prog Call ε σ α) (next : α → Prog Call ε σ β) : Prog Call ε σ β where
  run script state :=
    match first.run script state with
    | (.ok value, rest, after) => (next value).run rest after
    | (.err error, rest, after) => (.err error, rest, after)
    | (.crash, rest, after) => (.crash, rest, after)

instance : Monad (Prog Call ε σ) where
  pure := Prog.pure
  bind := Prog.bind

def getState : Prog Call ε σ σ := ⟨fun script state => (.ok state, script, state)⟩

def update (change : σ → σ) : Prog Call ε σ Unit := ⟨fun script state => (.ok (), script, change state)⟩

def fail (error : ε) : Prog Call ε σ α := ⟨fun script state => (.err error, script, state)⟩

/-- One I/O call of a kind, with the error it returns when it fails and the
effect it has when it succeeds. -/
def call (kind : Call) (error : ε) (effect : σ → σ) : Prog Call ε σ Unit where
  run script state :=
    match script 0 kind with
    | .done => (.ok (), script.tail, effect state)
    | .failed => (.err error, script.tail, state)
    | .crashed => (.crash, script.tail, state)

/-- Hand an error to the caller as a value. A crash is not caught. -/
def attempt (prog : Prog Call ε σ α) : Prog Call ε σ (Except ε α) where
  run script state :=
    match prog.run script state with
    | (.ok value, rest, after) => (.ok (.ok value), rest, after)
    | (.err error, rest, after) => (.ok (.error error), rest, after)
    | (.crash, rest, after) => (.crash, rest, after)

/-- Run a program over a larger state, and keep the larger state it ends in. -/
def nested (enter : σ → ρ) (leave : ρ → σ) (prog : Prog Call ε ρ α) : Prog Call ε σ (α × ρ) where
  run script state :=
    match prog.run script (enter state) with
    | (.ok value, rest, after) => (.ok (value, after), rest, leave after)
    | (.err error, rest, after) => (.err error, rest, leave after)
    | (.crash, rest, after) => (.crash, rest, leave after)

def forEach : List α → (α → Prog Call ε σ Unit) → Prog Call ε σ Unit
  | [], _ => pure ()
  | item :: rest, body => do
    body item
    forEach rest body

def mapEach : List α → (α → Prog Call ε σ β) → Prog Call ε σ (List β)
  | [], _ => pure []
  | item :: rest, body => do
    let value ← body item
    let values ← mapEach rest body
    return value :: values

@[simp] theorem pure_run (value : α) (script : Script Call) (state : σ) :
    (pure value : Prog Call ε σ α).run script state = (.ok value, script, state) := rfl

@[simp] theorem getState_run (script : Script Call) (state : σ) :
    (getState : Prog Call ε σ σ).run script state = (.ok state, script, state) := rfl

theorem ite_run (condition : Prop) [Decidable condition] (first second : Prog Call ε σ α) (script : Script Call)
    (state : σ) : (if condition then first else second).run script state =
      if condition then first.run script state else second.run script state := by
  split <;> rfl

theorem call_run_done {kind : Call} {script : Script Call} (error : ε) (effect : σ → σ) (state : σ)
    (done : script 0 kind = .done) : (call kind error effect).run script state = (.ok (), script.tail, effect state) := by
  simp only [call, done]

theorem call_run_failed {kind : Call} {script : Script Call} (error : ε) (effect : σ → σ) (state : σ)
    (failed : script 0 kind = .failed) :
    (call kind error effect).run script state = (.err error, script.tail, state) := by
  simp only [call, failed]

/-- A successful first part hands its value, its script and its state on. -/
theorem bind_run_ok {first : Prog Call ε σ α} {next : α → Prog Call ε σ β} {script rest : Script Call}
    {state after : σ} {value : α} (success : first.run script state = (.ok value, rest, after)) :
    (first >>= next).run script state = (next value).run rest after := by
  change (Prog.bind first next).run script state = _
  simp only [Prog.bind, success]

theorem bind_run_err {first : Prog Call ε σ α} {next : α → Prog Call ε σ β} {script rest : Script Call}
    {state after : σ} {error : ε} (failure : first.run script state = (.err error, rest, after)) :
    (first >>= next).run script state = (.err error, rest, after) := by
  change (Prog.bind first next).run script state = _
  simp only [Prog.bind, failure]

/-- Parts that run one after the other may be grouped in any way. -/
theorem bind_bind (first : Prog Call ε σ α) (next : α → Prog Call ε σ β) (last : β → Prog Call ε σ γ) :
    first >>= next >>= last = first >>= fun value => next value >>= last := by
  change Prog.bind (Prog.bind first next) last = Prog.bind first fun value => Prog.bind (next value) last
  unfold Prog.bind
  congr 1
  funext script state
  rcases run : first.run script state with ⟨exit, rest, after⟩
  cases exit <;> simp only [run]

/-- A run that returns went through a first part that did. -/
theorem bind_returned {first : Prog Call ε σ α} {next : α → Prog Call ε σ β} {script rest : Script Call}
    {state after : σ} {value : β} (run : (first >>= next).run script state = (.ok value, rest, after)) :
    ∃ middle left between, first.run script state = (.ok middle, left, between) ∧
      (next middle).run left between = (.ok value, rest, after) := by
  change (Prog.bind first next).run script state = _ at run
  simp only [Prog.bind] at run
  rcases here : first.run script state with ⟨exit, left, between⟩
  rw [here] at run
  cases exit with
  | ok middle => exact ⟨middle, left, between, rfl, run⟩
  | err error => cases run
  | crash => cases run

theorem call_returned {kind : Call} {error : ε} {effect : σ → σ} {script rest : Script Call} {state after : σ}
    (run : (call kind error effect).run script state = (.ok (), rest, after)) :
    script 0 kind = .done ∧ rest = script.tail ∧ after = effect state := by
  simp only [call] at run
  split at run
  · rename_i done
    cases run
    exact ⟨done, rfl, rfl⟩
  · cases run
  · cases run

theorem call_refused {kind : Call} {error failure : ε} {effect : σ → σ} {script rest : Script Call} {state after : σ}
    (run : (call kind error effect).run script state = (.err failure, rest, after)) :
    script 0 kind = .failed ∧ rest = script.tail ∧ after = state := by
  simp only [call] at run
  split at run
  · cases run
  · rename_i failed
    cases run
    exact ⟨failed, rfl, rfl⟩
  · cases run

/-- A run that returns an error after a call: the call's own, or one of the rest. -/
theorem call_bind_refused {kind : Call} {error failure : ε} {effect : σ → σ} {next : Unit → Prog Call ε σ β}
    {script rest : Script Call} {state after : σ}
    (run : (call kind error effect >>= next).run script state = (.err failure, rest, after)) :
    script 0 kind = .failed ∧ rest = script.tail ∧ after = state ∨
      script 0 kind = .done ∧ (next ()).run script.tail (effect state) = (.err failure, rest, after) := by
  change (Prog.bind (call kind error effect) next).run script state = _ at run
  simp only [Prog.bind] at run
  rcases here : (call kind error effect).run script state with ⟨exit, left, between⟩
  rw [here] at run
  cases exit with
  | ok value =>
    obtain ⟨done, same, reached⟩ := call_returned here
    subst same reached
    exact .inr ⟨done, run⟩
  | err own =>
    cases run
    exact .inl (call_refused here)
  | crash => cases run

theorem attempt_run_ok {prog : Prog Call ε σ α} {script rest : Script Call} {state after : σ} {value : α}
    (success : prog.run script state = (.ok value, rest, after)) :
    (attempt prog).run script state = (.ok (.ok value), rest, after) := by
  simp only [attempt, success]

theorem attempt_run_err {prog : Prog Call ε σ α} {script rest : Script Call} {state after : σ} {error : ε}
    (failure : prog.run script state = (.err error, rest, after)) :
    (attempt prog).run script state = (.ok (.error error), rest, after) := by
  simp only [attempt, failure]

theorem attempt_returned {prog : Prog Call ε σ α} {script rest : Script Call} {state after : σ} {answer : Except ε α}
    (run : (attempt prog).run script state = (.ok answer, rest, after)) :
    (∃ value, prog.run script state = (.ok value, rest, after) ∧ answer = .ok value) ∨
      ∃ error, prog.run script state = (.err error, rest, after) ∧ answer = .error error := by
  simp only [attempt] at run
  rcases here : prog.run script state with ⟨exit, left, between⟩
  rw [here] at run
  cases exit with
  | ok value =>
    cases run
    exact .inl ⟨value, rfl, rfl⟩
  | err error =>
    cases run
    exact .inr ⟨error, rfl, rfl⟩
  | crash => cases run

theorem nested_run_ok {enter : σ → ρ} {leave : ρ → σ} {prog : Prog Call ε ρ α} {script rest : Script Call}
    {state : σ} {after : ρ} {value : α} (success : prog.run script (enter state) = (.ok value, rest, after)) :
    (nested enter leave prog).run script state = (.ok (value, after), rest, leave after) := by
  simp only [nested, success]

theorem nested_returned {enter : σ → ρ} {leave : ρ → σ} {prog : Prog Call ε ρ α} {script rest : Script Call}
    {state after : σ} {result : α × ρ} (run : (nested enter leave prog).run script state = (.ok result, rest, after)) :
    prog.run script (enter state) = (.ok result.1, rest, result.2) ∧ after = leave result.2 := by
  simp only [nested] at run
  rcases here : prog.run script (enter state) with ⟨exit, left, between⟩
  rw [here] at run
  cases exit with
  | ok value =>
    cases run
    exact ⟨rfl, rfl⟩
  | err error => cases run
  | crash => cases run

theorem mapEach_run {items : List α} {body : α → Prog Call ε σ β} {script : Script Call} {value : α → β} (state : σ)
    (turn : ∀ item ∈ items, (body item).run script state = (.ok (value item), script, state)) :
    (mapEach items body).run script state = (.ok (items.map value), script, state) := by
  induction items with
  | nil => rfl
  | cons item rest ih =>
    have later := ih (fun other member => turn other (by simp [member]))
    simp only [mapEach, bind_run_ok (turn item (by simp)), bind_run_ok later, pure_run, List.map_cons]

end Prog

/-- What holds after a program, for each way it can end. -/
structure Post (ε σ α : Type) where
  ok : α → σ → Prop
  err : ε → σ → Prop
  crash : σ → Prop

namespace Post

variable {ε σ α : Type}

def after (post : Post ε σ α) : Exit ε α → σ → Prop
  | .ok value, state => post.ok value state
  | .err error, state => post.err error state
  | .crash, state => post.crash state

/-- However a program ends, something holds. -/
def always (inv : σ → Prop) : Post ε σ α := ⟨fun _ => inv, fun _ => inv, inv⟩

end Post

/-- Every decision of the script is one the fault policy allows. -/
def Allowed {Call : Type} (may : Call → Fate → Prop) (script : Script Call) : Prop :=
  ∀ index kind, may kind (script index kind)

theorem Allowed.tail {Call : Type} {may : Call → Fate → Prop} {script : Script Call} (allowed : Allowed may script) :
    Allowed may script.tail := fun index => allowed (index + 1)

theorem allowed_calm {Call : Type} {may : Call → Fate → Prop} (done : ∀ kind, may kind .done) : Allowed may .calm :=
  fun _ kind => done kind

theorem allowed_only {Call : Type} [DecidableEq Call] {may : Call → Fate → Prop} (done : ∀ kind, may kind .done)
    (number : Nat) {kind : Call} {fate : Fate} (here : may kind fate) : Allowed may (.only number kind fate) := by
  intro index other
  unfold Script.only
  split
  · rename_i reached
    exact reached.2 ▸ here
  · exact done other

namespace Prog

variable {Call ε σ ρ α β : Type} {may : Call → Fate → Prop}

/-- Under every allowed script the program ends as the postcondition says. -/
def wp (may : Call → Fate → Prop) (prog : Prog Call ε σ α) (post : Post ε σ α) (state : σ) : Prop :=
  ∀ script, Allowed may script →
    Allowed may (prog.run script state).2.1 ∧ post.after (prog.run script state).1 (prog.run script state).2.2

theorem wp_pure {value : α} {post : Post ε σ α} {state : σ} (holds : post.ok value state) :
    wp may (pure value) post state := fun _ allowed => ⟨allowed, holds⟩

theorem wp_getState {post : Post ε σ σ} {state : σ} (holds : post.ok state state) :
    wp may getState post state := fun _ allowed => ⟨allowed, holds⟩

theorem wp_fail {error : ε} {post : Post ε σ α} {state : σ} (holds : post.err error state) :
    wp may (fail error) post state := fun _ allowed => ⟨allowed, holds⟩

theorem wp_mono {prog : Prog Call ε σ α} {post weaker : Post ε σ α} {state : σ}
    (holds : wp may prog post state) (ok : ∀ value after, post.ok value after → weaker.ok value after)
    (err : ∀ error after, post.err error after → weaker.err error after)
    (crash : ∀ after, post.crash after → weaker.crash after) : wp may prog weaker state := by
  intro script allowed
  obtain ⟨rest, ends⟩ := holds script allowed
  refine ⟨rest, ?_⟩
  cases exit : (prog.run script state).1 with
  | ok value => exact ok _ _ (by simpa [exit, Post.after] using ends)
  | err error => exact err _ _ (by simpa [exit, Post.after] using ends)
  | crash => exact crash _ (by simpa [exit, Post.after] using ends)

theorem wp_bind {first : Prog Call ε σ α} {next : α → Prog Call ε σ β} {post : Post ε σ β} {state : σ}
    (holds : wp may first ⟨fun value after => wp may (next value) post after, post.err, post.crash⟩ state) :
    wp may (first >>= next) post state := by
  intro script allowed
  obtain ⟨rest, ends⟩ := holds script allowed
  change Allowed may ((Prog.bind first next).run script state).2.1 ∧
    post.after ((Prog.bind first next).run script state).1 ((Prog.bind first next).run script state).2.2
  rcases run : first.run script state with ⟨exit, left, after⟩
  rw [run] at rest ends
  cases exit with
  | ok value => simpa only [Prog.bind, run] using ends left rest
  | err error =>
    simp only [Prog.bind, run]
    exact ⟨rest, ends⟩
  | crash =>
    simp only [Prog.bind, run]
    exact ⟨rest, ends⟩

theorem wp_call {kind : Call} {error : ε} {effect : σ → σ} {post : Post ε σ Unit} {state : σ}
    (done : post.ok () (effect state)) (failed : may kind .failed → post.err error state)
    (crashed : may kind .crashed → post.crash state) : wp may (call kind error effect) post state := by
  intro script allowed
  have decided := allowed 0 kind
  cases fate : script 0 kind with
  | done =>
    simp only [call, fate]
    exact ⟨allowed.tail, done⟩
  | failed =>
    simp only [call, fate]
    exact ⟨allowed.tail, failed (fate ▸ decided)⟩
  | crashed =>
    simp only [call, fate]
    exact ⟨allowed.tail, crashed (fate ▸ decided)⟩

theorem wp_getState_bind {next : σ → Prog Call ε σ β} {post : Post ε σ β} {state : σ}
    (holds : wp may (next state) post state) : wp may (getState >>= next) post state :=
  wp_bind (wp_getState holds)

theorem wp_call_bind {kind : Call} {error : ε} {effect : σ → σ} {next : Unit → Prog Call ε σ β} {post : Post ε σ β}
    {state : σ} (done : wp may (next ()) post (effect state)) (failed : may kind .failed → post.err error state)
    (crashed : may kind .crashed → post.crash state) : wp may (call kind error effect >>= next) post state :=
  wp_bind (wp_call done failed crashed)

theorem wp_attempt {prog : Prog Call ε σ α} {post : Post ε σ (Except ε α)} {state : σ}
    (holds : wp may prog ⟨fun value => post.ok (.ok value), fun error => post.ok (.error error), post.crash⟩ state) :
    wp may (attempt prog) post state := by
  intro script allowed
  obtain ⟨rest, ends⟩ := holds script allowed
  rcases run : prog.run script state with ⟨exit, left, after⟩
  rw [run] at rest ends
  cases exit <;> simp only [attempt, run] <;> exact ⟨rest, ends⟩

theorem wp_nested {enter : σ → ρ} {leave : ρ → σ} {prog : Prog Call ε ρ α} {post : Post ε σ (α × ρ)} {state : σ}
    (holds : wp may prog ⟨fun value after => post.ok (value, after) (leave after),
      fun error after => post.err error (leave after), fun after => post.crash (leave after)⟩ (enter state)) :
    wp may (nested enter leave prog) post state := by
  intro script allowed
  obtain ⟨rest, ends⟩ := holds script allowed
  rcases run : prog.run script (enter state) with ⟨exit, left, after⟩
  rw [run] at rest ends
  cases exit <;> simp only [nested, run] <;> exact ⟨rest, ends⟩

/-- A program that makes no call ends the same under every script. -/
theorem wp_of_run {prog : Prog Call ε σ α} {post : Post ε σ α} {state after : σ} {value : α}
    (run : ∀ script, prog.run script state = (.ok value, script, after)) (holds : post.ok value after) :
    wp may prog post state := by
  intro script allowed
  rw [run script]
  exact ⟨allowed, holds⟩

/-- Loop rule: the invariant speaks of the items still to come. -/
theorem wp_forEach {items : List α} {body : α → Prog Call ε σ Unit} {post : Post ε σ Unit} {state : σ}
    (inv : List α → σ → Prop) (entry : inv items state) (exit : ∀ after, inv [] after → post.ok () after)
    (turn : ∀ item rest after, inv (item :: rest) after →
      wp may (body item) ⟨fun _ => inv rest, post.err, post.crash⟩ after) :
    wp may (forEach items body) post state := by
  induction items generalizing state with
  | nil => exact wp_pure (exit state entry)
  | cons item rest ih =>
    apply wp_bind
    exact wp_mono (turn item rest state entry) (fun _ after holds => ih holds)
      (fun _ _ holds => holds) (fun _ holds => holds)

/-- Loop rule for bodies that leave the state as it is. -/
theorem wp_mapEach {items : List α} {body : α → Prog Call ε σ β} {post : Post ε σ (List β)} {state : σ}
    (relate : α → β → Prop)
    (turn : ∀ item ∈ items, wp may (body item) ⟨fun value after => after = state ∧ relate item value,
      post.err, post.crash⟩ state)
    (exit : ∀ values, List.Forall₂ relate items values → post.ok values state) :
    wp may (mapEach items body) post state := by
  induction items generalizing post with
  | nil => exact wp_pure (exit [] .nil)
  | cons item rest ih =>
    refine wp_bind (wp_mono (turn item (by simp)) ?_ (fun _ _ holds => holds) (fun _ holds => holds))
    intro value after related
    obtain ⟨same, here⟩ := related
    subst same
    refine wp_bind (ih (fun other member => turn other (by simp [member])) ?_)
    intro values later
    exact wp_pure (exit (value :: values) (.cons here later))

/-- Loop rule for bodies whose results are known. -/
theorem wp_mapEach_map {items : List α} {body : α → Prog Call ε σ β} {post : Post ε σ (List β)} {state : σ}
    (result : α → β)
    (turn : ∀ item ∈ items, wp may (body item) ⟨fun value after => after = state ∧ value = result item,
      post.err, post.crash⟩ state)
    (exit : post.ok (items.map result) state) : wp may (mapEach items body) post state := by
  refine wp_mapEach (fun item value => value = result item) turn ?_
  intro values related
  have same : values = items.map result := by
    clear turn exit
    induction related with
    | nil => rfl
    | cons here _ ih => rw [List.map_cons, here, ih]
  exact same ▸ exit

/-- A run's ending satisfies what the weakest precondition promises. -/
theorem wp_run {prog : Prog Call ε σ α} {post : Post ε σ α} {state : σ} (holds : wp may prog post state)
    {script rest : Script Call} {exit : Exit ε α} {after : σ} (allowed : Allowed may script)
    (run : prog.run script state = (exit, rest, after)) : post.after exit after := by
  have ends := (holds script allowed).2
  rwa [run] at ends

/-- Some call may be the last. -/
def Dies (may : Call → Fate → Prop) : Prop := ∃ kind, may kind .crashed

/-- However the program ends, the invariant holds if it held before. It is cut off
only where the fault policy lets it be. -/
def Preserves (may : Call → Fate → Prop) (inv : σ → Prop) (prog : Prog Call ε σ α) : Prop :=
  ∀ state, inv state → wp may prog ⟨fun _ => inv, fun _ => inv, fun after => Dies may ∧ inv after⟩ state

namespace Preserves

variable {inv : σ → Prop}

theorem pure (value : α) : Preserves may inv (pure value : Prog Call ε σ α) := fun _ holds => wp_pure holds

theorem fail (error : ε) : Preserves may inv (fail error : Prog Call ε σ α) := fun _ holds => wp_fail holds

theorem call {kind : Call} {error : ε} {effect : σ → σ} (keeps : ∀ state, inv state → inv (effect state)) :
    Preserves may inv (call kind error effect) :=
  fun state holds => wp_call (keeps state holds) (fun _ => holds) (fun died => ⟨⟨kind, died⟩, holds⟩)

theorem bind {first : Prog Call ε σ α} {next : α → Prog Call ε σ β} (here : Preserves may inv first)
    (later : ∀ value, Preserves may inv (next value)) : Preserves may inv (first >>= next) := by
  intro state holds
  refine wp_bind (wp_mono (here state holds) ?_ (fun _ _ kept => kept) (fun _ kept => kept))
  exact fun value after kept => later value after kept

theorem attempt {prog : Prog Call ε σ α} (keeps : Preserves may inv prog) : Preserves may inv (attempt prog) :=
  fun state holds => wp_attempt (wp_mono (keeps state holds) (fun _ _ kept => kept) (fun _ _ kept => kept)
    (fun _ kept => kept))

theorem forEach {items : List α} {body : α → Prog Call ε σ Unit} (turn : ∀ item, Preserves may inv (body item)) :
    Preserves may inv (forEach items body) :=
  fun _ holds => wp_forEach (fun _ => inv) holds (fun _ kept => kept) fun item _ after kept => turn item after kept

theorem mapEach {items : List α} {body : α → Prog Call ε σ β} (turn : ∀ item, Preserves may inv (body item)) :
    Preserves may inv (mapEach items body) := by
  induction items with
  | nil => exact pure []
  | cons item rest ih => exact bind (turn item) fun value => bind ih fun values => pure (value :: values)

/-- A run from a state with the invariant ends in one. -/
theorem run {prog : Prog Call ε σ α} (keeps : Preserves (fun _ _ => True) inv prog) {state : σ} (holds : inv state)
    (script : Script Call) : inv (prog.run script state).2.2 := by
  have ends := (keeps state holds script fun _ _ => trivial).2
  cases exit : (prog.run script state).1 with
  | ok value =>
    rw [exit] at ends
    exact ends
  | err error =>
    rw [exit] at ends
    exact ends
  | crash =>
    rw [exit] at ends
    exact ends.2

end Preserves

end Prog

end Enigma
