import ReactiveMarkup.Machine.Reactive

/-! What a step ensures if it comes to its end. Whether it may panic or run out of calls is
left open, so that the same rules serve runs that may break off and runs that may not. -/

namespace ReactiveMarkup.Step

variable {σ τ α β : Type} {breaks : Breaks}

/-- Whether steps may break off. -/
structure Breaks where
  panics : Prop
  exhausts : Prop

def Breaks.any : Breaks := ⟨True, True⟩

def Ensures (breaks : Breaks) (step : Step σ α) (before : σ) (post : α → σ → Prop) : Prop :=
  match step.run before with
  | (.done value, after) => post value after
  | (.panicked _, _) => breaks.panics
  | (.exhausted, _) => breaks.exhausts

theorem Ensures.of_done {step : Step σ α} {before after : σ} {value : α} {post : α → σ → Prop}
    (ensured : Ensures breaks step before post) (done : step.run before = (.done value, after)) :
    post value after := by
  simpa only [Ensures, done] using ensured

/-- What holds whenever a step comes to its end. -/
theorem ensures_any_of_done {step : Step σ α} {before : σ} {post : α → σ → Prop}
    (holds : ∀ value after, step.run before = (.done value, after) → post value after) : Ensures .any step before post := by
  unfold Ensures
  split
  next value after done => exact holds value after done
  · exact trivial
  · exact trivial

/-- A step that may not break off comes to its end. -/
theorem Ensures.done {step : Step σ α} {before : σ} {post : α → σ → Prop}
    (ensured : Ensures ⟨False, False⟩ step before post) :
    ∃ value after, step.run before = (.done value, after) ∧ post value after := by
  unfold Ensures at ensured
  split at ensured
  next value after done => exact ⟨value, after, done, ensured⟩
  · exact ensured.elim
  · exact ensured.elim

/-- A step that does not break off comes to its end. -/
theorem Ensures.done_of_calm {step : Step σ α} {before : σ} {post : α → σ → Prop} (ensured : Ensures breaks step before post)
    (calm : ∀ cause after, step.run before ≠ (.panicked cause, after)) (ample : ¬ breaks.exhausts) :
    ∃ value after, step.run before = (.done value, after) ∧ post value after := by
  unfold Ensures at ensured
  split at ensured
  next value after done => exact ⟨value, after, done, ensured⟩
  next cause after panicked => exact absurd panicked (calm cause after)
  next => exact absurd ensured ample

theorem Ensures.mono {step : Step σ α} {before : σ} {post weaker : α → σ → Prop}
    (ensured : Ensures breaks step before post) (implies : ∀ value after, post value after → weaker value after) :
    Ensures breaks step before weaker := by
  unfold Ensures at ensured ⊢
  split at ensured
  · exact implies _ _ ensured
  · exact ensured
  · exact ensured

/-- A step that ensures more, and breaks off for fewer reasons. -/
theorem Ensures.relax {more : Breaks} {step : Step σ α} {before : σ} {post weaker : α → σ → Prop} (ensured : Ensures breaks step before post)
    (panics : breaks.panics → more.panics) (exhausts : breaks.exhausts → more.exhausts)
    (implies : ∀ value after, post value after → weaker value after) : Ensures more step before weaker := by
  unfold Ensures at ensured ⊢
  split at ensured
  · exact implies _ _ ensured
  · exact panics ensured
  · exact exhausts ensured

@[simp]
theorem ensures_pure (value : α) (before : σ) (post : α → σ → Prop) :
    Ensures breaks (pure value) before post ↔ post value before := Iff.rfl

@[simp]
theorem ensures_bind (step : Step σ α) (next : α → Step σ β) (before : σ) (post : β → σ → Prop) :
    Ensures breaks (step >>= next) before post ↔
      Ensures breaks step before fun value between => Ensures breaks (next value) between post := by
  show Ensures breaks (Step.bind step next) before post ↔ _
  simp only [Ensures, run, Step.bind]
  rcases step before with ⟨_ | _ | _, _⟩ <;> rfl

/-- A sequence that came to its end went through its first step. -/
theorem exists_of_run_bind {step : Step σ α} {next : α → Step σ β} {state after : σ} {result : β}
    (ran : (step >>= next).run state = (.done result, after)) :
    ∃ value between, step.run state = (.done value, between) ∧ (next value).run between = (.done result, after) := by
  have bound : Ensures ⟨False, False⟩ (step >>= next) state fun value last => value = result ∧ last = after := by
    unfold Ensures
    rw [ran]
    exact ⟨rfl, rfl⟩
  rw [ensures_bind] at bound
  obtain ⟨value, between, done, rest⟩ := bound.done
  obtain ⟨_, _, last, rfl, rfl⟩ := rest.done
  exact ⟨value, between, done, last⟩

@[simp]
theorem ensures_map (step : Step σ α) (f : α → β) (before : σ) (post : β → σ → Prop) :
    Ensures breaks (f <$> step) before post ↔ Ensures breaks step before fun value => post (f value) := by
  rw [map_eq_pure_bind, ensures_bind]
  rfl

@[simp]
theorem ensures_discard (step : Step σ α) (before : σ) (post : PUnit → σ → Prop) :
    Ensures breaks (discard step) before post ↔ Ensures breaks step before fun _ => post ⟨⟩ := by
  show Ensures breaks (step >>= fun _ => pure ⟨⟩) before post ↔ _
  rw [ensures_bind]
  rfl

@[simp]
theorem ensures_get (before : σ) (post : σ → σ → Prop) :
    Ensures breaks (get : Step σ σ) before post ↔ post before before := Iff.rfl

@[simp]
theorem ensures_modifyGet (f : σ → α × σ) (before : σ) (post : α → σ → Prop) :
    Ensures breaks (MonadState.modifyGet f : Step σ α) before post ↔ post (f before).1 (f before).2 := Iff.rfl

@[simp]
theorem ensures_modify (f : σ → σ) (before : σ) (post : PUnit → σ → Prop) :
    Ensures breaks (modify f : Step σ PUnit) before post ↔ post ⟨⟩ (f before) := Iff.rfl

@[simp]
theorem ensures_panic (cause : Panic) (before : σ) (post : α → σ → Prop) :
    Ensures breaks (Step.panic cause) before post ↔ breaks.panics := Iff.rfl

@[simp]
theorem ensures_exhausted (before : σ) (post : α → σ → Prop) :
    Ensures breaks Step.exhausted before post ↔ breaks.exhausts := Iff.rfl

@[simp]
theorem ensures_forM_nil (f : α → Step σ PUnit) (before : σ) (post : PUnit → σ → Prop) :
    Ensures breaks ([].forM f) before post ↔ post ⟨⟩ before := Iff.rfl

@[simp]
theorem ensures_forM_cons (first : α) (rest : List α) (f : α → Step σ PUnit) (before : σ)
    (post : PUnit → σ → Prop) :
    Ensures breaks ((first :: rest).forM f) before post ↔
      Ensures breaks (f first) before fun _ between => Ensures breaks (rest.forM f) between post :=
  ensures_bind (f first) (fun _ => rest.forM f) before post

theorem ensures_after (step : Step σ α) (cleanup : Ending α → σ → σ) (before : σ) (post : α → σ → Prop) :
    Ensures breaks (step.after cleanup) before post ↔
      Ensures breaks step before fun value after => post value (cleanup (.done value) after) := by
  simp only [Ensures, run, after]
  rcases step before with ⟨_ | _ | _, _⟩ <;> rfl

theorem ensures_zoom (part : σ → τ) (put : σ → τ → σ) (step : Step τ α) (before : σ) (post : α → σ → Prop) :
    Ensures breaks (step.zoom part put) before post ↔
      Ensures breaks step (part before) fun value after => post value (put before after) := by
  simp only [Ensures, run, zoom]
  rcases step (part before) with ⟨_ | _ | _, _⟩ <;> rfl

end ReactiveMarkup.Step

namespace ReactiveMarkup.Machine

open ReactiveMarkup.Step

variable {host : Host} {breaks : Breaks}

theorem run_graph? (machine : Machine host) : (graph? : Run host _).run machine = (.done machine.graph, machine) := rfl

@[simp]
theorem ensures_graph? (machine : Machine host) (post : Graph host.Code (Task host.Code) → Machine host → Prop) :
    Ensures breaks graph? machine post ↔ post machine.graph machine := Iff.rfl

@[simp]
theorem ensures_modifyGraph (f : Graph host.Code (Task host.Code) → Graph host.Code (Task host.Code))
    (machine : Machine host) (post : Unit → Machine host → Prop) :
    Ensures breaks (modifyGraph f) machine post ↔ post () { machine with graph := f machine.graph } := Iff.rfl

@[simp]
theorem ensures_addToGraph (content : Content host.Code (Task host.Code)) (machine : Machine host)
    (post : Nat → Machine host → Prop) :
    Ensures breaks (addToGraph content) machine post ↔
      post machine.graph.vertices.size { machine with graph := (machine.graph.add content).2 } := Iff.rfl

@[simp]
theorem ensures_edit {α : Type} (step : Document.Edit (Listener host.Code) α) (machine : Machine host)
    (post : α → Machine host → Prop) :
    Ensures breaks (edit step) machine post ↔
      Ensures breaks step machine.document fun value document => post value { machine with document } :=
  ensures_zoom ..

theorem ensures_observedBy {α : Type} (observer : Option Nat) (step : Run host α) (machine : Machine host)
    (post : α → Machine host → Prop) :
    Ensures breaks (observedBy observer step) machine post ↔
      Ensures breaks step { machine with graph := { machine.graph with observer } } fun value after =>
        post value { after with graph := { after.graph with observer := machine.graph.observer } } := by
  simp only [observedBy, ensures_bind, ensures_graph?, ensures_modifyGraph, ensures_after]

theorem ensures_holding {α : Type} (parts : List Part) (step : Run host α) (machine : Machine host)
    (post : α → Machine host → Prop) :
    Ensures breaks (holding parts step) machine post ↔
      Ensures breaks step { machine with held := parts ++ machine.held } fun value after =>
        post value { after with held := machine.held } := by
  simp only [holding, hold, ensures_bind, ensures_get, ensures_modify, ensures_after]

theorem ensures_withBatch {α : Type} (step : Run host α) (machine : Machine host)
    (post : α → Machine host → Prop) :
    Ensures breaks (withBatch step) machine post ↔
      Ensures breaks step { machine with graph := machine.graph.enterBatch } fun value after =>
        post value { after with graph := after.graph.leaveBatch false } := by
  simp only [withBatch, ensures_bind, ensures_modifyGraph, ensures_after, Ending.isPanic]

end ReactiveMarkup.Machine
