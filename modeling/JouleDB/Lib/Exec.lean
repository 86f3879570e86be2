/-!
# Stateful code that can fail, stop, and be observed

`Exec` is the monad of the stateful code: a call transforms a state, ends with a
value, with a returned error, or by stopping the process (a panic or a crash), and
keeps everything it did to the state before it ended.  A call also records the
observations made on the way (the `log`), which conditions on runs are stated over.

`Exec.Runs` is the weakest precondition of a call for one postcondition per ending,
restricted to calls whose observations are all clean.  `Exec.Meets` keeps only the
value of a call and the cause of its errors, and `Exec.Respects` is a relation that
holds between the two states however the call ends.
-/

namespace JouleDB

/-- Why a process stopped in the middle of a call. -/
inductive Halt where
  | panic
  | crash
  deriving DecidableEq, Repr

/-- How a device answers one request. -/
inductive Io where
  | ok
  | fail
  | crash
  deriving DecidableEq, Repr

/-- How a call ends. -/
inductive Outcome (ε α : Type) where
  | ok (value : α)
  | err (error : ε)
  | halt (cause : Halt)
  deriving DecidableEq, Repr

namespace Outcome

variable {ε α β : Type}

/-- Sequencing of pure code: only a value is passed on. -/
protected def bind : Outcome ε α → (α → Outcome ε β) → Outcome ε β
  | .ok value, next => next value
  | .err error, _ => .err error
  | .halt cause, _ => .halt cause

instance : Monad (Outcome ε) where
  pure := .ok
  bind := Outcome.bind

@[simp] theorem pure_eq (value : α) : (pure value : Outcome ε α) = .ok value := rfl

@[simp] theorem ok_bind (value : α) (next : α → Outcome ε β) :
    (Outcome.ok value >>= next) = next value := rfl

@[simp] theorem err_bind (error : ε) (next : α → Outcome ε β) :
    (Outcome.err error >>= next) = .err error := rfl

@[simp] theorem halt_bind (cause : Halt) (next : α → Outcome ε β) :
    (Outcome.halt cause >>= next) = .halt cause := rfl

end Outcome

/-- The end of a stateful call: its outcome, the state it leaves and what was
observed on the way. -/
structure Result (σ ω ε α : Type) where
  outcome : Outcome ε α
  state : σ
  log : List ω

/-- A stateful call over states `σ` with observations `ω` and errors `ε`. -/
def Exec (σ ω ε α : Type) : Type := σ → Result σ ω ε α

namespace Exec

variable {σ ω ε α β : Type}

/-- Run the second call in the state the first one leaves, if it ended with a
value. -/
protected def bind (call : Exec σ ω ε α) (next : α → Exec σ ω ε β) : Exec σ ω ε β :=
  fun state =>
    match call state with
    | ⟨.ok value, middle, log⟩ =>
        let rest := next value middle
        ⟨rest.outcome, rest.state, log ++ rest.log⟩
    | ⟨.err error, final, log⟩ => ⟨.err error, final, log⟩
    | ⟨.halt cause, final, log⟩ => ⟨.halt cause, final, log⟩

instance : Monad (Exec σ ω ε) where
  pure value := fun state => ⟨.ok value, state, []⟩
  bind := Exec.bind

/-- Read the state. -/
def get : Exec σ ω ε σ := fun state => ⟨.ok state, state, []⟩

/-- Change the state. -/
def modify (change : σ → σ) : Exec σ ω ε Unit := fun state => ⟨.ok (), change state, []⟩

/-- Record an observation. -/
def note (observation : ω) : Exec σ ω ε Unit := fun state => ⟨.ok (), state, [observation]⟩

/-- Return an error. -/
def fail (error : ε) : Exec σ ω ε α := fun state => ⟨.err error, state, []⟩

/-- Stop the process. -/
def stop (cause : Halt) : Exec σ ω ε α := fun state => ⟨.halt cause, state, []⟩

/-- Embed pure code. -/
def lift (outcome : Outcome ε α) : Exec σ ω ε α := fun state => ⟨outcome, state, []⟩

/-- Unwrap a value that the code takes for granted; its absence is a panic. -/
def expect : Option α → Exec σ ω ε α
  | some value => pure value
  | none => stop .panic

/-- Go on as a device answered: with the effect of the request, with an error, or not at
all. -/
def answer (io : Io) (error : ε) (effect : σ → σ) : Exec σ ω ε Unit :=
  match io with
  | .ok => modify effect
  | .fail => fail error
  | .crash => stop .crash

/-- Run a call on a component of a larger state. -/
def zoom {τ : Type} (view : τ → σ) (update : σ → τ → τ) (call : Exec σ ω ε α) :
    Exec τ ω ε α :=
  fun state =>
    let result := call (view state)
    ⟨result.outcome, update result.state state, result.log⟩

/-! ## One call after another -/

section Sequence

variable {call : Exec σ ω ε α} {next : α → Exec σ ω ε β} {state middle : σ} {log : List ω}

theorem bind_of_ok {value : α} (ran : call state = ⟨.ok value, middle, log⟩) :
    (call >>= next) state = ⟨(next value middle).outcome, (next value middle).state,
      log ++ (next value middle).log⟩ := by
  change Exec.bind call next state = _
  rw [Exec.bind, ran]

theorem bind_of_err {error : ε} (ran : call state = ⟨.err error, middle, log⟩) :
    (call >>= next) state = ⟨.err error, middle, log⟩ := by
  change Exec.bind call next state = _
  rw [Exec.bind, ran]

theorem bind_of_halt {cause : Halt} (ran : call state = ⟨.halt cause, middle, log⟩) :
    (call >>= next) state = ⟨.halt cause, middle, log⟩ := by
  change Exec.bind call next state = _
  rw [Exec.bind, ran]

@[simp] theorem get_bind {next : σ → Exec σ ω ε β} :
    (Exec.get >>= next) state = next state state := rfl

@[simp] theorem modify_bind {change : σ → σ} {next : Unit → Exec σ ω ε β} :
    (Exec.modify change >>= next) state = next () (change state) := rfl

theorem note_bind {observation : ω} {next : Unit → Exec σ ω ε β} :
    (Exec.note observation >>= next) state =
      ⟨(next () state).outcome, (next () state).state, observation :: (next () state).log⟩ := rfl

end Sequence

/-! ## How a call ends -/

/-- The call ends with an outcome, a state and observations that satisfy `post`. -/
def Ends (call : Exec σ ω ε α) (post : Outcome ε α → σ → List ω → Prop) (state : σ) : Prop :=
  post (call state).outcome (call state).state (call state).log

section Ends

variable {call : Exec σ ω ε α} {post : Outcome ε α → σ → List ω → Prop} {state : σ}

theorem Ends.mono {post' : Outcome ε α → σ → List ω → Prop} (ends : Ends call post state)
    (weaker : ∀ outcome final log, post outcome final log → post' outcome final log) :
    Ends call post' state :=
  weaker _ _ _ ends

theorem ends_bind {next : α → Exec σ ω ε β} {post : Outcome ε β → σ → List ω → Prop} :
    Ends (call >>= next) post state ↔
      Ends call (fun outcome middle log =>
        match outcome with
        | .ok value => Ends (next value) (fun outcome final rest => post outcome final (log ++ rest)) middle
        | .err error => post (.err error) middle log
        | .halt cause => post (.halt cause) middle log) state := by
  change post (Exec.bind call next state).outcome (Exec.bind call next state).state
    (Exec.bind call next state).log ↔ _
  unfold Ends Exec.bind
  rcases call state with ⟨outcome, middle, log⟩
  cases outcome <;> exact Iff.rfl

@[simp] theorem ends_pure {value : α} :
    Ends (Pure.pure value : Exec σ ω ε α) post state ↔ post (.ok value) state [] := Iff.rfl

@[simp] theorem ends_get {post : Outcome ε σ → σ → List ω → Prop} :
    Ends (Exec.get : Exec σ ω ε σ) post state ↔ post (.ok state) state [] := Iff.rfl

@[simp] theorem ends_modify {change : σ → σ} {post : Outcome ε Unit → σ → List ω → Prop} :
    Ends (Exec.modify change : Exec σ ω ε Unit) post state ↔ post (.ok ()) (change state) [] :=
  Iff.rfl

@[simp] theorem ends_note {observation : ω} {post : Outcome ε Unit → σ → List ω → Prop} :
    Ends (Exec.note observation : Exec σ ω ε Unit) post state ↔
      post (.ok ()) state [observation] := Iff.rfl

@[simp] theorem ends_fail {error : ε} :
    Ends (Exec.fail error : Exec σ ω ε α) post state ↔ post (.err error) state [] := Iff.rfl

@[simp] theorem ends_stop {cause : Halt} :
    Ends (Exec.stop cause : Exec σ ω ε α) post state ↔ post (.halt cause) state [] := Iff.rfl

@[simp] theorem ends_lift {outcome : Outcome ε α} :
    Ends (Exec.lift outcome : Exec σ ω ε α) post state ↔ post outcome state [] := Iff.rfl

theorem ends_zoom {τ : Type} {view : τ → σ} {update : σ → τ → τ} {whole : τ}
    {post : Outcome ε α → τ → List ω → Prop} :
    Ends (Exec.zoom view update call) post whole ↔
      Ends call (fun outcome part log => post outcome (update part whole) log) (view whole) :=
  Iff.rfl

end Ends

/-! ## Weakest preconditions -/

/-- Every clean run of the call from `state` ends in a state that satisfies the
postcondition of the way it ended. -/
def Runs (clean : ω → Prop) (call : Exec σ ω ε α) (onOk : α → σ → Prop)
    (onErr : ε → σ → Prop) (onHalt : σ → Prop) (state : σ) : Prop :=
  (∀ observation ∈ (call state).log, clean observation) →
    match (call state).outcome with
    | .ok value => onOk value (call state).state
    | .err error => onErr error (call state).state
    | .halt _ => onHalt (call state).state

section Rules

variable {clean : ω → Prop} {call : Exec σ ω ε α} {next : α → Exec σ ω ε β}
variable {onOk onOk' : α → σ → Prop} {onErr onErr' : ε → σ → Prop} {onHalt onHalt' : σ → Prop}
variable {state : σ}

theorem Runs.mono (runs : Runs clean call onOk onErr onHalt state)
    (okMono : ∀ value final, onOk value final → onOk' value final)
    (errMono : ∀ error final, onErr error final → onErr' error final)
    (haltMono : ∀ final, onHalt final → onHalt' final) :
    Runs clean call onOk' onErr' onHalt' state := by
  intro cleanLog
  have reached := runs cleanLog
  revert reached
  cases (call state).outcome with
  | ok value => exact okMono value _
  | err error => exact errMono error _
  | halt cause => exact haltMono _

theorem Runs.bind {onOk' : β → σ → Prop}
    (first : Runs clean call onOk onErr onHalt state)
    (second : ∀ value middle, onOk value middle →
      Runs clean (next value) onOk' onErr onHalt middle) :
    Runs clean (call >>= next) onOk' onErr onHalt state := by
  intro cleanLog
  change ∀ observation ∈ (Exec.bind call next state).log, clean observation at cleanLog
  change match (Exec.bind call next state).outcome with
    | .ok value => onOk' value (Exec.bind call next state).state
    | .err error => onErr error (Exec.bind call next state).state
    | .halt _ => onHalt (Exec.bind call next state).state
  unfold Exec.bind at cleanLog ⊢
  unfold Runs at first
  revert first cleanLog
  rcases call state with ⟨outcome, middle, log⟩
  cases outcome with
  | ok value =>
      intro first cleanLog
      have reached := first fun observation member =>
        cleanLog observation (List.mem_append_left _ member)
      exact second value middle reached fun observation member =>
        cleanLog observation (List.mem_append_right _ member)
  | err error => exact fun first cleanLog => first cleanLog
  | halt cause => exact fun first cleanLog => first cleanLog

theorem Runs.pure {value : α} (holds : onOk value state) :
    Runs clean (Pure.pure value : Exec σ ω ε α) onOk onErr onHalt state :=
  fun _ => holds

theorem Runs.get {onOk : σ → σ → Prop} (holds : onOk state state) :
    Runs clean (Exec.get : Exec σ ω ε σ) onOk onErr onHalt state :=
  fun _ => holds

theorem Runs.modify {change : σ → σ} {onOk : Unit → σ → Prop}
    (holds : onOk () (change state)) :
    Runs clean (Exec.modify change : Exec σ ω ε Unit) onOk onErr onHalt state :=
  fun _ => holds

theorem Runs.note {observation : ω} {onOk : Unit → σ → Prop}
    (holds : clean observation → onOk () state) :
    Runs clean (Exec.note observation : Exec σ ω ε Unit) onOk onErr onHalt state :=
  fun cleanLog => holds (cleanLog observation (List.mem_singleton.mpr rfl))

theorem Runs.fail {error : ε} (holds : onErr error state) :
    Runs clean (Exec.fail error : Exec σ ω ε α) onOk onErr onHalt state :=
  fun _ => holds

theorem Runs.stop {cause : Halt} (holds : onHalt state) :
    Runs clean (Exec.stop cause : Exec σ ω ε α) onOk onErr onHalt state :=
  fun _ => holds

theorem Runs.answer {io : Io} {error : ε} {effect : σ → σ} {onOk : Unit → σ → Prop}
    (answered : io = .ok → onOk () (effect state)) (failed : io = .fail → onErr error state)
    (crashed : onHalt state) :
    Runs clean (Exec.answer io error effect : Exec σ ω ε Unit) onOk onErr onHalt state := by
  cases io with
  | ok => exact Runs.modify (answered rfl)
  | fail => exact Runs.fail (failed rfl)
  | crash => exact Runs.stop crashed

theorem Runs.zoom {τ : Type} {view : τ → σ} {update : σ → τ → τ} {whole : τ}
    {onOk : α → τ → Prop} {onErr : ε → τ → Prop} {onHalt : τ → Prop}
    (runs : Runs clean call (fun value part => onOk value (update part whole))
      (fun error part => onErr error (update part whole))
      (fun part => onHalt (update part whole)) (view whole)) :
    Runs clean (Exec.zoom view update call) onOk onErr onHalt whole :=
  runs

end Rules

/-! ## Values and causes of errors -/

/-- Every clean run that ends with a value satisfies `post`, and a returned error is
possible only when `faulty` holds. -/
def Meets (clean : ω → Prop) (faulty : Prop) (call : Exec σ ω ε α) (post : α → σ → Prop)
    (state : σ) : Prop :=
  Runs clean call post (fun _ _ => faulty) (fun _ => True) state

section Meets

variable {clean : ω → Prop} {faulty : Prop} {call : Exec σ ω ε α} {next : α → Exec σ ω ε β}
variable {post : α → σ → Prop} {state : σ}

theorem Meets.mono {post' : α → σ → Prop} (meets : Meets clean faulty call post state)
    (weaker : ∀ value final, post value final → post' value final) :
    Meets clean faulty call post' state :=
  Runs.mono meets weaker (fun _ _ => id) (fun _ => id)

theorem Meets.bind {post' : β → σ → Prop} (first : Meets clean faulty call post state)
    (second : ∀ value middle, post value middle →
      Meets clean faulty (next value) post' middle) :
    Meets clean faulty (call >>= next) post' state :=
  Runs.bind first second

theorem Meets.skip : Meets clean True call (fun _ _ => True) state := by
  intro _
  cases (call state).outcome <;> trivial

theorem Meets.pure {value : α} (holds : post value state) :
    Meets clean faulty (Pure.pure value : Exec σ ω ε α) post state :=
  Runs.pure holds

theorem Meets.get_bind {next : σ → Exec σ ω ε β} {post : β → σ → Prop}
    (rest : Meets clean faulty (next state) post state) :
    Meets clean faulty (Exec.get >>= next) post state := by
  have read : Meets clean faulty (Exec.get : Exec σ ω ε σ)
      (fun value final => value = state ∧ final = state) state := Runs.get ⟨rfl, rfl⟩
  refine read.bind ?_
  rintro _ _ ⟨rfl, rfl⟩
  exact rest

theorem Meets.modify_bind {change : σ → σ} {next : Unit → Exec σ ω ε β} {post : β → σ → Prop}
    (rest : Meets clean faulty (next ()) post (change state)) :
    Meets clean faulty (Exec.modify change >>= next) post state := by
  have changed : Meets clean faulty (Exec.modify change : Exec σ ω ε Unit)
      (fun _ final => final = change state) state := Runs.modify rfl
  refine changed.bind ?_
  rintro _ _ rfl
  exact rest

/-- Pure code that returns a value, and going on. -/
theorem Meets.lift_bind {outcome : Outcome ε α} {value : α} {post : β → σ → Prop}
    (returns : outcome = .ok value) (rest : Meets clean faulty (next value) post state) :
    Meets clean faulty (Exec.lift outcome >>= next) post state := by
  have lifted : Meets clean faulty (Exec.lift outcome : Exec σ ω ε α)
      (fun result final => result = value ∧ final = state) state := by
    rw [returns]
    exact Runs.pure ⟨rfl, rfl⟩
  refine lifted.bind ?_
  rintro _ _ ⟨rfl, rfl⟩
  exact rest

end Meets

/-! ## Relations that hold however a call ends -/

/-- The relation holds between the states before and after every clean run. -/
def Respects (clean : ω → Prop) (relation : σ → σ → Prop) (call : Exec σ ω ε α) : Prop :=
  ∀ state, (∀ observation ∈ (call state).log, clean observation) →
    relation state (call state).state

section Respects

variable {clean : ω → Prop} {relation : σ → σ → Prop} {call : Exec σ ω ε α}
variable {next : α → Exec σ ω ε β}

theorem Respects.runs (respects : Respects clean relation call) (state : σ) :
    Runs clean call (fun _ final => relation state final) (fun _ final => relation state final)
      (fun final => relation state final) state := by
  intro cleanLog
  have related := respects state cleanLog
  cases (call state).outcome <;> exact related

theorem Respects.of_runs
    (runs : ∀ state, Runs clean call (fun _ final => relation state final)
      (fun _ final => relation state final) (fun final => relation state final) state) :
    Respects clean relation call := by
  intro state cleanLog
  have related := runs state cleanLog
  revert related
  cases (call state).outcome <;> exact id

theorem Respects.bind (trans : ∀ {a b c}, relation a b → relation b c → relation a c)
    (first : Respects clean relation call) (second : ∀ value, Respects clean relation (next value)) :
    Respects clean relation (call >>= next) := by
  refine Respects.of_runs fun state => ?_
  refine (first.runs state).bind ?_
  intro value middle related
  exact ((second value).runs middle).mono (fun _ _ later => trans related later)
    (fun _ _ later => trans related later) (fun _ later => trans related later)

theorem Respects.of_unchanged (refl : ∀ state, relation state state)
    (unchanged : ∀ state, (call state).state = state) : Respects clean relation call := by
  intro state _
  rw [unchanged]
  exact refl state

end Respects

end Exec

end JouleDB
