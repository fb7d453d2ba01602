import SchemaCodec.Error
import SchemaCodec.Event

/-! # Actions

Steps on a state that may fail and that report events. A step leaves its state behind also when it
fails: what it did before the failure stays done.
-/

namespace SchemaCodec

variable {σ τ α β : Type}

structure Outcome (σ α : Type) where
  result : Except Error α
  state : σ
  events : List Event

def Action (σ α : Type) := σ → Outcome σ α

namespace Action

def pure (x : α) : Action σ α := fun s => ⟨.ok x, s, []⟩

def bind (first : Action σ α) (next : α → Action σ β) : Action σ β := fun s =>
  let outcome := first s
  match outcome.result with
  | .error e => ⟨.error e, outcome.state, outcome.events⟩
  | .ok x =>
    let further := next x outcome.state
    ⟨further.result, further.state, outcome.events ++ further.events⟩

instance : Monad (Action σ) where
  pure := Action.pure
  bind := Action.bind

def fail (e : Error) : Action σ α := fun s => ⟨.error e, s, []⟩

def get : Action σ σ := fun s => ⟨.ok s, s, []⟩

def modify (f : σ → σ) : Action σ Unit := fun s => ⟨.ok (), f s, []⟩

def report (event : Event) : Action σ Unit := fun s => ⟨.ok (), s, [event]⟩

def ofExcept (outcome : Except Error α) : Action σ α := fun s => ⟨outcome, s, []⟩

def ofStateful (step : EStateM Error σ α) : Action σ α := fun s =>
  match step s with
  | .ok x s => ⟨.ok x, s, []⟩
  | .error e s => ⟨.error e, s, []⟩

def within (part : σ → τ) (update : τ → σ → σ) (step : Action τ α) : Action σ α := fun s =>
  let outcome := step (part s)
  ⟨outcome.result, update outcome.state s, outcome.events⟩

def first (step : Action σ α) : Action (σ × τ) α := within Prod.fst (fun s p => (s, p.2)) step

def second (step : Action τ α) : Action (σ × τ) α := within Prod.snd (fun t p => (p.1, t)) step

/-- Runs a step that needs a second state, and forgets that state afterwards. -/
def supplied (t : τ) (step : Action (σ × τ) α) : Action σ α := fun s =>
  let outcome := step (s, t)
  ⟨outcome.result, outcome.state.1, outcome.events⟩

def traverse (step : α → Action σ β) : List α → Action σ (List β)
  | [] => Action.pure []
  | x :: xs => do
    let y ← step x
    let ys ← traverse step xs
    return y :: ys

/-- Runs a step, and another one in place of it where an error is caught. The state after the
failed step is kept. -/
def recover (step : Action σ α) (handler : Error → Option (Action σ α)) : Action σ α := fun s =>
  let outcome := step s
  match outcome.result with
  | .ok x => ⟨.ok x, outcome.state, outcome.events⟩
  | .error e =>
    match handler e with
    | none => ⟨.error e, outcome.state, outcome.events⟩
    | some other =>
      let further := other outcome.state
      ⟨further.result, further.state, outcome.events ++ further.events⟩

end Action

end SchemaCodec
