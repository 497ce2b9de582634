import ReactiveMarkup.Panic

/-!
Steps on a state. However a step ends, the state that it reached is kept: a panic breaks
off what was going on but undoes nothing.
-/

namespace ReactiveMarkup

/-- How a step ends. An exhausted step ran out of the calls it was allowed to nest. -/
inductive Ending (α : Type) where
  | done (value : α)
  | panicked (panic : Panic)
  | exhausted

def Ending.isPanic {α : Type} : Ending α → Bool
  | .panicked _ => true
  | _ => false

/-- A computation that turns a state into an ending and a later state. -/
def Step (σ α : Type) := σ → Ending α × σ

namespace Step

variable {σ τ α β : Type}

def run (step : Step σ α) (state : σ) : Ending α × σ := step state

protected def pure (value : α) : Step σ α := fun state => (.done value, state)

protected def bind (step : Step σ α) (next : α → Step σ β) : Step σ β := fun state =>
  match step state with
  | (.done value, state) => next value state
  | (.panicked panic, state) => (.panicked panic, state)
  | (.exhausted, state) => (.exhausted, state)

instance : Monad (Step σ) where
  pure := Step.pure
  bind := Step.bind

theorem bind_pure (step : Step σ α) : Step.bind step Step.pure = step := by
  funext state
  rw [Step.bind]
  rcases step state with ⟨_ | _ | _, _⟩ <;> rfl

theorem bind_assoc {γ : Type} (step : Step σ α) (next : α → Step σ β) (last : β → Step σ γ) :
    Step.bind (Step.bind step next) last = Step.bind step fun value => Step.bind (next value) last := by
  funext state
  rw [Step.bind, Step.bind, Step.bind]
  rcases step state with ⟨_ | _ | _, _⟩ <;> rfl

instance : LawfulMonad (Step σ) := .mk' (Step σ) bind_pure (fun _ _ => rfl) bind_assoc

instance : MonadStateOf σ (Step σ) where
  get := fun state => (.done state, state)
  set state := fun _ => (.done ⟨⟩, state)
  modifyGet f := fun state => let (value, state) := f state; (.done value, state)

@[simp]
theorem run_pure (value : α) (state : σ) : (pure value : Step σ α).run state = (.done value, state) := rfl

/-- A run whose ending is known. -/
theorem run_of_ending {step : Step σ α} {state : σ} {ending : Ending α} (ended : (step.run state).1 = ending) :
    step.run state = (ending, (step.run state).2) := Prod.ext ended rfl

theorem run_bind_of_done {step : Step σ α} {next : α → Step σ β} {state after : σ} {value : α}
    (done : step.run state = (.done value, after)) : (step >>= next).run state = (next value).run after := by
  show Step.bind step next state = next value after
  rw [Step.bind, show step state = _ from done]

theorem run_bind_of_panicked {step : Step σ α} {next : α → Step σ β} {state after : σ} {cause : Panic}
    (panicked : step.run state = (.panicked cause, after)) :
    (step >>= next).run state = (.panicked cause, after) := by
  show Step.bind step next state = _
  rw [Step.bind, show step state = _ from panicked]

theorem run_bind_of_exhausted {step : Step σ α} {next : α → Step σ β} {state after : σ}
    (exhausted : step.run state = (.exhausted, after)) : (step >>= next).run state = (.exhausted, after) := by
  show Step.bind step next state = _
  rw [Step.bind, show step state = _ from exhausted]

def panic (panic : Panic) : Step σ α := fun state => (.panicked panic, state)

def exhausted : Step σ α := fun state => (.exhausted, state)

/-- Does something to the state after a step, however the step ends. -/
def after (step : Step σ α) (cleanup : Ending α → σ → σ) : Step σ α := fun state =>
  let (ending, state) := step state
  (ending, cleanup ending state)

/-- A step on part of the state. -/
def zoom (get : σ → τ) (set : σ → τ → σ) (step : Step τ α) : Step σ α := fun state =>
  let (ending, part) := step (get state)
  (ending, set state part)

end Step

end ReactiveMarkup
